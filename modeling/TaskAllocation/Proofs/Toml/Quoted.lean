import TaskAllocation.Proofs.Document.Scanner
import TaskAllocation.Toml.Quoted
import TaskAllocation.Toml.Writer

/-!
# Quoted texts are read as they were written

A text is written in one of four kinds of quotation marks, and every kind is read back
character by character.  Between three marks the characters are not read one at a time
alone: marks within the text are read in runs, and the last run takes in the closing
marks.  What is written is therefore described by `Body` together with the marks that have
just been written, which an induction over the text carries along.

## Main definitions

* `Toml.Body` — what may stand between three marks, and the text it stands for.

## Main results

* `Toml.reads_basic`, `Toml.reads_literal` — texts on one line.
* `Toml.Body.reads` — texts between three marks.
* `Toml.reads_quoted` — **a quoted text is read as the text that was quoted.**
-/

namespace TaskAllocation.Toml

open Scanner

variable {cs rest : List Char} {c : Char}

/-! ### Characters that stand for themselves -/

theorem isPlain_of_not_isControl (hc : isControl c = false) (hn : c ≠ '\n') :
    isPlain c = true := by
  simp only [isControl, isPlain, decide_eq_false_iff_not, decide_eq_true_eq] at hc ⊢
  by_cases ht : c = '\t'
  · exact .inl ht
  · exact .inr (by grind)

theorem ne_break_of_isPlain (h : isPlain c = true) : c ≠ '\n' ∧ c ≠ '\r' := by
  constructor <;> (rintro rfl; simp [isPlain] at h)

theorem reads_plain (h : isPlain c = true) (rest : List Char) : Reads plain [c] c rest := by
  have hnext : Reads (if isPlain c then next else stuck) [c] c rest := by
    rw [if_pos h]
    exact .next c rest
  exact (Reads.peek? ([c] ++ rest)).bind_nil hnext

/-! ### Escapes -/

theorem reads_hexDigits : ∀ {ds : List Char}, (∀ d ∈ ds, (digitValue? 16 d).isSome) →
    ∀ rest, Reads (times scanHexDigit ds.length) ds ds rest
  | [], _, rest => .pure [] rest
  | d :: ds, h, rest => by
    have hd : Reads scanHexDigit [d] d (ds ++ rest) := by
      refine (Reads.next d _).bind_all ?_
      rw [if_pos (h d (by simp))]
      exact .pure d _
    exact hd.bind (reads_hexDigits (fun e he => h e (by simp [he])) rest).map

/-- The numbers of control characters are written in digits that are read back. -/
theorem fourDigits_spec : ∀ n < 128,
    (fourDigits n).all (fun d => (digitValue? 16 d).isSome) = true ∧
      numberOfDigits 16 (fourDigits n) = n := by
  decide

theorem reads_scanCharacter (hc : c.toNat < 128) (rest : List Char) :
    Reads (scanCharacter 4) (fourDigits c.toNat) c rest := by
  obtain ⟨hhex, hvalue⟩ := fourDigits_spec c.toNat hc
  have hds : Reads (times scanHexDigit 4) (fourDigits c.toNat) (fourDigits c.toNat) rest :=
    reads_hexDigits (List.all_eq_true.1 hhex) _
  refine hds.bind_all ?_
  rw [hvalue, if_pos (show c.toNat.isValidChar from c.valid), Char.ofNat_toNat]
  exact .pure c rest

/-- A character that starts neither a blank nor a line break, so that a backslash before it
leads in an escape and does not end the line. -/
def leadsEscape (c : Char) : Bool := c ≠ ' ' ∧ c ≠ '\t' ∧ c ≠ '\n' ∧ c ≠ '\r'

/-- An escape of one letter. -/
theorem reads_letter {d : Char} (h : ∀ bound rest, escape bound (d :: rest) = .ok (c, rest))
    (rest : List Char) : Reads escape [d] c rest := fun bound _ => h bound rest

/-- How a character other than a quotation mark is written: as itself, as a line break where
there may be one, or as an escape that is read back. -/
theorem escaped_cases (multiline : Bool) (c : Char) :
    (escaped multiline c = [c] ∧ isPlain c = true ∧ c ≠ '\\') ∨
    (escaped multiline c = ['\n'] ∧ c = '\n' ∧ multiline = true) ∨
    ∃ d e, escaped multiline c = '\\' :: d :: e ∧ leadsEscape d = true ∧
      ∀ rest, Reads escape (d :: e) c rest := by
  have hletter {d : Char} (hd : leadsEscape d = true)
      (he : ∀ bound rest, escape bound (d :: rest) = .ok (c, rest)) :
      ∃ d' e, ['\\', d] = '\\' :: d' :: e ∧ leadsEscape d' = true ∧
        ∀ rest, Reads escape (d' :: e) c rest := ⟨d, [], rfl, hd, reads_letter he⟩
  unfold escaped
  split
  · next h => subst h; exact .inr (.inr (hletter rfl fun _ _ => rfl))
  split
  · next h => subst h; exact .inr (.inr (hletter rfl fun _ _ => rfl))
  split
  · next h => subst h; exact .inr (.inr (hletter rfl fun _ _ => rfl))
  split
  · next h => subst h; exact .inr (.inr (hletter rfl fun _ _ => rfl))
  split
  · next h => subst h; exact .inr (.inr (hletter rfl fun _ _ => rfl))
  split
  · next h =>
    subst h
    split
    · next hm => exact .inr (.inl ⟨rfl, rfl, hm⟩)
    · exact .inr (.inr (hletter rfl fun _ _ => rfl))
  split
  · next hc =>
    have hsmall : c.toNat < 128 := by
      simp only [isControl, decide_eq_true_eq] at hc
      omega
    exact .inr (.inr ⟨'u', _, rfl, rfl, fun rest =>
      (Reads.next 'u' _).bind (reads_scanCharacter hsmall rest)⟩)
  · next hb _ _ _ _ hn hc =>
    exact .inl ⟨rfl, isPlain_of_not_isControl (Bool.eq_false_iff.2 hc) hn, hb⟩

/-! ### On one line -/

/-- A text with escapes is read up to its closing mark. -/
theorem reads_basic (run : Nat) (cs rest : List Char) :
    Reads basic (escapeAll false run cs ++ ['"']) cs rest := by
  refine Collects.reads ?_
  induction cs generalizing run with
  | nil => exact .done (.accepted _ (.pure none rest))
  | cons c cs ih =>
    by_cases hq : c = '"'
    · subst hq
      have hesc : Reads escape ['"'] '"' ((escapeAll false 0 cs ++ ['"']) ++ rest) :=
        reads_letter (fun _ _ => rfl) _
      simp only [escapeAll, Bool.false_eq_true, false_and, if_true, if_false]
      exact .more (w := ['\\', '"']) (by simp)
        (.refused (by simp) (.accepted _ hesc.map)) (ih 0)
    · simp only [escapeAll, hq, if_false, List.append_assoc]
      obtain ⟨he, hp, hb⟩ | ⟨-, -, h⟩ | ⟨d, e, he, -, hesc⟩ := escaped_cases false c
      · rw [he]
        exact .more (w := [c]) (by simp) (.refused (by simp [hq, eq_comm])
          (.refused (by simp [hb, eq_comm]) (reads_plain hp _).map)) (ih 0)
      · cases h
      · rw [he]
        exact .more (w := '\\' :: d :: e) (by simp) (.refused (by simp)
          (.accepted _ (hesc _).map)) (ih 0)

/-- A text without escapes is read up to its closing mark. -/
theorem reads_literal (hcs : ∀ c ∈ cs, isPlain c = true ∧ c ≠ '\x27') (rest : List Char) :
    Reads literal (cs ++ ['\x27']) cs rest := by
  refine Collects.reads ?_
  induction cs with
  | nil => exact .done (.accepted _ (.pure none rest))
  | cons c cs ih =>
    obtain ⟨hp, hq⟩ := hcs c (by simp)
    exact .more (w := [c]) (by simp) (.refused (by simp [hq, eq_comm]) (reads_plain hp _).map)
      (ih fun d hd => hcs d (by simp [hd]))

/-! ### Between three marks -/

/-- What may stand between three marks after `run` of them, and what it stands for: pieces
that do not begin with a mark, and at most two marks in a row. -/
inductive Body (mark : Char) (piece : Scanner (List Char)) :
    (run : Nat) → (written cs : List Char) → Prop where
  /-- The closing marks are next. -/
  | close {run : Nat} (hrun : run ≤ 2) : Body mark piece run [] []
  /-- One more mark. -/
  | mark {run : Nat} {w cs : List Char} (h : Body mark piece (run + 1) w cs) :
      Body mark piece run (mark :: w) (mark :: cs)
  /-- A piece, which ends the run of marks. -/
  | piece {run : Nat} {p v w cs : List Char} (hrun : run ≤ 2) (hne : p ≠ [])
      (hmark : p.head? ≠ some mark) (hp : ∀ rest, Reads piece p v rest)
      (h : Body mark piece 0 w cs) : Body mark piece run (p ++ w) (v ++ cs)

variable {mark : Char} {piece : Scanner (List Char)} {w v p : List Char} {run count : Nat}

theorem reads_marks (run : Nat) (h : rest.head? ≠ some mark) :
    Reads (takeWhile (· = mark)) (List.replicate run mark) (List.replicate run mark) rest :=
  .takeWhile (fun c hc => by simp [List.eq_of_mem_replicate hc])
    (fun c hc => by
      rw [Option.mem_def] at hc
      simp only [decide_eq_false_iff_not]
      rintro rfl
      exact h hc)

theorem reads_blockUpTo_close (hrun : run ≤ 2) (h : rest.head? ≠ some mark) :
    Reads (blockUpTo mark piece (count + 1)) (List.replicate (run + 3) mark)
      (List.replicate run mark) rest := by
  rw [blockUpTo]
  refine (reads_marks (run + 3) h).bind_all ?_
  rw [if_neg (by simp; omega), if_pos (by simp), List.drop_replicate]
  exact .pure _ rest

theorem reads_blockUpTo_marks (hpos : 0 < run) (hrun : run ≤ 2)
    (hw : (w ++ rest).head? ≠ some mark) (h : Reads (blockUpTo mark piece count) w v rest) :
    Reads (blockUpTo mark piece (count + 1)) (List.replicate run mark ++ w)
      (List.replicate run mark ++ v) rest := by
  rw [blockUpTo]
  refine (reads_marks run hw).bind ?_
  rw [if_neg (by simp; omega), if_neg (by simp; omega), if_neg (by simp; omega)]
  exact (Reads.pure (List.replicate run mark) _).bind_nil h.map

theorem reads_blockUpTo_piece (hp : (p ++ (w ++ rest)).head? ≠ some mark)
    (hpiece : Reads piece p v (w ++ rest)) (h : Reads (blockUpTo mark piece count) w cs rest) :
    Reads (blockUpTo mark piece (count + 1)) (p ++ w) (v ++ cs) rest := by
  rw [blockUpTo]
  have hp' : (p ++ w ++ rest).head? ≠ some mark := by rwa [List.append_assoc]
  refine (reads_marks 0 hp').bind_nil ?_
  rw [if_neg (by simp), if_neg (by simp), if_pos (by simp)]
  exact hpiece.bind h.map

theorem Body.reads_upTo (h : Body mark piece run w cs) (hrest : rest.head? ≠ some mark)
    (hcount : run + w.length + 3 < count) :
    Reads (blockUpTo mark piece count) (List.replicate run mark ++ w ++ List.replicate 3 mark)
      (List.replicate run mark ++ cs) rest := by
  induction h generalizing count with
  | @close run hrun =>
    obtain ⟨count, rfl⟩ : ∃ n, count = n + 1 := ⟨count - 1, by omega⟩
    simp only [List.append_nil, List.replicate_append_replicate]
    exact reads_blockUpTo_close hrun hrest
  | @mark run w cs h ih =>
    have := ih (by simp only [List.length_cons] at hcount; omega : run + 1 + w.length + 3 < count)
    simpa only [List.replicate_succ', List.append_assoc, List.cons_append, List.nil_append]
      using this
  | @piece run p v w cs hrun hne hmark hp h ih =>
    obtain ⟨c, p, rfl⟩ := List.exists_cons_of_ne_nil hne
    simp only [List.length_append, List.length_cons] at hcount
    obtain ⟨count, rfl⟩ : ∃ n, count = n + 2 := ⟨count - 2, by omega⟩
    have hstep (n : Nat) (hn : 0 + w.length + 3 < n) :
        Reads (blockUpTo mark piece (n + 1)) ((c :: p) ++ (w ++ List.replicate 3 mark))
          (v ++ cs) rest :=
      reads_blockUpTo_piece (by simpa using hmark) (hp _) (by simpa using ih hn)
    rw [List.append_assoc, List.append_assoc]
    -- the marks of the run before a piece are read in one round, and the piece in the next
    obtain rfl | hpos := Nat.eq_zero_or_pos run
    · exact hstep (count + 1) (by omega)
    · exact reads_blockUpTo_marks hpos hrun (by simpa using hmark) (hstep count (by omega))

/-- What is written between three marks is read up to the closing ones; what the line break
after the opening ones is, if there is one, does not matter. -/
theorem Body.reads (h : Body mark piece 0 w cs) (hrest : rest.head? ≠ some mark)
    {breaks b : List Char} (hb : Reads lineBreak breaks b (w ++ List.replicate 3 mark ++ rest)) :
    Reads (block mark piece) (breaks ++ (w ++ List.replicate 3 mark)) cs rest := by
  intro bound hbound
  have hcount : 0 + w.length + 3 < bound := by
    simp only [List.length_append, List.length_replicate] at hbound
    omega
  have hall : Reads (lineBreak >>= fun _ => blockUpTo mark piece bound) _ _ rest :=
    hb.bind (h.reads_upTo hrest hcount)
  exact hall bound hbound

/-! ### Line breaks and pieces -/

theorem reads_lineBreak (rest : List Char) : Reads lineBreak ['\n'] ['\n'] rest :=
  .accepted _ (.pure _ rest)

/-- There is no line break before any other character. -/
theorem reads_lineBreak_nil (h : ∀ c ∈ rest.head?, c ≠ '\n' ∧ c ≠ '\r') :
    Reads lineBreak [] [] rest := by
  have hno : ¬"\n".toList <+: [] ++ rest ∧ ¬"\r\n".toList <+: [] ++ rest := by
    cases rest with
    | nil => simp
    | cons c rest =>
      obtain ⟨hn, hr⟩ := h c rfl
      simp [hn.symm, hr.symm]
  exact .refused hno.1 (.refused hno.2 (.pure _ rest))

theorem reads_plainOrBreak (hc : isPlain c = true ∨ c = '\n') (rest : List Char) :
    Reads plainOrBreak [c] [c] rest := by
  by_cases hn : c = '\n'
  · subst hn
    exact (reads_lineBreak rest).bind_all (.pure _ rest)
  · have hp := hc.resolve_right hn
    have hnone : Reads lineBreak [] [] ([c] ++ rest) :=
      reads_lineBreak_nil fun d hd => by cases hd; exact ne_break_of_isPlain hp
    exact hnone.bind_nil (reads_plain hp rest).map

/-- A piece of a text with escapes: behind a backslash an escape or the end of a line that
goes on, and else a character that stands for itself. -/
def escapedPiece : Scanner (List Char) := do
  if ← accept "\\" then escapeOrBreak else plainOrBreak

theorem basicBlock_eq : basicBlock = block '"' escapedPiece := rfl

theorem reads_escapedPiece_plain (hc : isPlain c = true ∨ c = '\n') (hb : c ≠ '\\')
    (rest : List Char) : Reads escapedPiece [c] [c] rest :=
  .refused (by simp [hb.symm]) (reads_plainOrBreak hc rest)

theorem continuation?_of_leadsEscape {d : Char} (hd : leadsEscape d = true)
    (cs : List Char) : continuation? (d :: cs) = none := by
  simp only [leadsEscape, ne_eq, decide_eq_true_eq] at hd
  simp [continuation?, hd]

theorem reads_escapedPiece_escape {d : Char} {e : List Char} (hd : leadsEscape d = true)
    (h : ∀ rest, Reads escape (d :: e) c rest) (rest : List Char) :
    Reads escapedPiece ('\\' :: d :: e) [c] rest := by
  refine .accepted _ (w := d :: e) fun bound hb => ?_
  have hmap : Reads (escape >>= fun c => pure [c]) (d :: e) [c] rest := (h rest).map
  rw [escapeOrBreak, List.cons_append, continuation?_of_leadsEscape hd]
  exact hmap bound hb

/-! ### Texts over several lines -/

theorem body_escapeAll : ∀ (cs : List Char) {run : Nat}, run ≤ 2 →
    Body '"' escapedPiece run (escapeAll true run cs) cs
  | [], _, hrun => .close hrun
  | c :: cs, run, hrun => by
    by_cases hq : c = '"'
    · subst hq
      by_cases hlt : run < 2
      · simp only [escapeAll, if_true, hlt, and_self]
        exact .mark (body_escapeAll cs hlt)
      · simp only [escapeAll, if_true, hlt, and_false, if_false]
        exact .piece (p := ['\\', '"']) hrun (by simp) (by simp)
          (reads_escapedPiece_escape rfl (reads_letter fun _ _ => rfl))
          (body_escapeAll cs (Nat.zero_le 2))
    · simp only [escapeAll, hq, if_false]
      have hrest := body_escapeAll cs (Nat.zero_le 2)
      obtain ⟨he, hp, hb⟩ | ⟨he, hn, -⟩ | ⟨d, e, he, hd, hesc⟩ := escaped_cases true c
      · rw [he]
        exact .piece (v := [c]) hrun (by simp) (by simp [hq])
          (reads_escapedPiece_plain (.inl hp) hb) hrest
      · subst hn
        rw [he]
        exact .piece (v := ['\n']) hrun (by simp) (by simp)
          (reads_escapedPiece_plain (.inr rfl) (by simp)) hrest
      · rw [he]
        exact .piece (v := [c]) hrun (by simp) (by simp) (reads_escapedPiece_escape hd hesc) hrest

theorem body_literal : ∀ {cs : List Char} {run : Nat}, longestRun '\x27' run cs ≤ 2 →
    (∀ c ∈ cs, isControl c = false) → Body '\x27' plainOrBreak run cs cs
  | [], _, hrun, _ => .close hrun
  | c :: cs, run, hrun, hcs => by
    have hcs' : ∀ d ∈ cs, isControl d = false := fun d hd => hcs d (by simp [hd])
    rw [longestRun] at hrun
    by_cases hq : c = '\x27'
    · subst hq
      rw [if_pos rfl] at hrun
      exact .mark (body_literal hrun hcs')
    · rw [if_neg hq] at hrun
      have hc : isPlain c = true ∨ c = '\n' := by
        by_cases hn : c = '\n'
        · exact .inr hn
        · exact .inl (isPlain_of_not_isControl (hcs c (by simp)) hn)
      exact .piece (p := [c]) (v := [c]) (by omega) (by simp) (by simp [hq])
        (reads_plainOrBreak hc) (body_literal (by omega) hcs')

/-- The line break that a text over several lines may be opened with is read as one. -/
theorem reads_opening (cs rest : List Char)
    (h : '\n' ∉ cs → ∀ c ∈ rest.head?, c ≠ '\n' ∧ c ≠ '\r') :
    ∃ b, Reads lineBreak (opening cs).toList b rest := by
  unfold opening
  split
  · exact ⟨_, reads_lineBreak rest⟩
  · next hn => exact ⟨_, reads_lineBreak_nil (h (by simpa using hn))⟩

theorem head?_escapeAll (hcs : '\n' ∉ cs) :
    ∀ d ∈ (escapeAll true 0 cs).head?, d ≠ '\n' ∧ d ≠ '\r' := by
  intro d hd
  obtain _ | ⟨c, cs⟩ := cs
  · cases hd
  · by_cases hq : c = '"'
    · simp only [escapeAll, hq, if_true, Nat.zero_lt_two, and_self] at hd
      cases hd
      simp
    · simp only [escapeAll, hq, if_false] at hd
      obtain ⟨he, hp, -⟩ | ⟨-, rfl, -⟩ | ⟨_, _, he, -⟩ := escaped_cases true c
      · rw [he] at hd
        cases hd
        exact ne_break_of_isPlain hp
      · simp at hcs
      · rw [he] at hd
        cases hd
        simp

theorem reads_basicBlock (cs : List Char) (hrest : rest.head? ≠ some '"') :
    Reads basicBlock ((opening cs).toList ++ (escapeAll true 0 cs ++ ['"', '"', '"'])) cs rest := by
  obtain ⟨b, hb⟩ := reads_opening cs (escapeAll true 0 cs ++ ['"', '"', '"'] ++ rest)
    fun hcs d hd => by
      cases h : escapeAll true 0 cs with
      | nil => rw [h] at hd; cases hd; simp
      | cons e es => exact head?_escapeAll hcs d (by rw [h] at hd ⊢; exact hd)
  rw [basicBlock_eq]
  exact (body_escapeAll cs (Nat.zero_le 2)).reads hrest hb

theorem reads_literalBlock (hcs : ∀ c ∈ cs, isControl c = false)
    (hrun : longestRun '\x27' 0 cs ≤ 2) (hrest : rest.head? ≠ some '\x27') :
    Reads literalBlock ((opening cs).toList ++ (cs ++ ['\x27', '\x27', '\x27'])) cs rest := by
  obtain ⟨b, hb⟩ := reads_opening cs (cs ++ ['\x27', '\x27', '\x27'] ++ rest)
    fun hn d hd => by
      cases cs with
      | nil => cases hd; simp
      | cons c cs =>
        cases hd
        exact ne_break_of_isPlain
          (isPlain_of_not_isControl (hcs d (by simp)) (by rintro rfl; simp at hn))
  exact (body_literal hrun hcs).reads hrest hb

/-! ### Any text -/

theorem le_longestRun (mark : Char) : ∀ (cs : List Char) (run : Nat),
    run ≤ longestRun mark run cs
  | [], _ => Nat.le_refl _
  | c :: cs, run => by
    have := le_longestRun mark cs (run + 1)
    rw [longestRun]
    split <;> omega

theorem not_mem_of_longestRun {mark : Char} : ∀ {cs : List Char} {run : Nat},
    longestRun mark run cs = 0 → mark ∉ cs
  | [], _, _ => by simp
  | c :: cs, run, h => by
    have := le_longestRun mark cs (run + 1)
    rw [longestRun] at h
    split at h
    · omega
    · next hc =>
      have hzero : longestRun mark 0 cs = 0 := by omega
      simp [Ne.symm hc, not_mem_of_longestRun hzero]

/-- A text in double marks does not look like the opening of one in three. -/
theorem not_block_basicText (cs : List Char) (hrest : rest.head? ≠ some '"') :
    ¬['"', '"', '"'] <+: '"' :: (escapeAll false 0 cs ++ ['"']) ++ rest := by
  cases cs with
  | nil => cases rest <;> simp_all [escapeAll, eq_comm]
  | cons c cs =>
    by_cases hq : c = '"'
    · simp [escapeAll, hq]
    · simp only [escapeAll, hq, if_false]
      obtain ⟨he, -⟩ | ⟨he, -⟩ | ⟨_, _, he, -⟩ := escaped_cases false c
      all_goals simp [he, Ne.symm hq]

theorem toList_basicText (cs : List Char) :
    (basicText cs).toList = '"' :: (escapeAll false 0 cs ++ ['"']) := by
  simp [basicText, String.toList_append]

theorem toList_literalText (cs : List Char) :
    (literalText cs).toList = '\x27' :: (cs ++ ['\x27']) := by
  simp [literalText, String.toList_append]

theorem toList_basicBlockText (cs : List Char) :
    (basicBlockText cs).toList = '"' :: '"' :: '"' ::
      ((opening cs).toList ++ (escapeAll true 0 cs ++ ['"', '"', '"'])) := by
  simp [basicBlockText, String.toList_append]

theorem toList_literalBlockText (cs : List Char) :
    (literalBlockText cs).toList = '\x27' :: '\x27' :: '\x27' ::
      ((opening cs).toList ++ (cs ++ ['\x27', '\x27', '\x27'])) := by
  simp [literalBlockText, String.toList_append]

theorem reads_quoted_basicText (cs : List Char) (hrest : rest.head? ≠ some '"') :
    Reads quoted? (basicText cs).toList (some (String.ofList cs)) rest := by
  rw [toList_basicText]
  exact .refused (not_block_basicText cs hrest)
    (.refused (by simp) (.accepted _ (reads_basic 0 cs rest).map))

theorem reads_quoted_basicBlockText (cs : List Char) (hrest : rest.head? ≠ some '"') :
    Reads quoted? (basicBlockText cs).toList (some (String.ofList cs)) rest := by
  rw [toList_basicBlockText]
  exact .accepted _ (reads_basicBlock cs hrest).map

theorem reads_quoted_literalText (hcs : ∀ c ∈ cs, isPlain c = true ∧ c ≠ '\x27') (hne : cs ≠ [])
    (rest : List Char) : Reads quoted? (literalText cs).toList (some (String.ofList cs)) rest := by
  obtain ⟨c, cs, rfl⟩ := List.exists_cons_of_ne_nil hne
  have hc : c ≠ '\x27' := (hcs c (by simp)).2
  rw [toList_literalText]
  exact .refused (by simp) (.refused (by simp [hc.symm])
    (.refused (by simp) (.accepted _ (reads_literal hcs rest).map)))

theorem reads_quoted_literalBlockText (hcs : ∀ c ∈ cs, isControl c = false)
    (hrun : longestRun '\x27' 0 cs ≤ 2) (hrest : rest.head? ≠ some '\x27') :
    Reads quoted? (literalBlockText cs).toList (some (String.ofList cs)) rest := by
  rw [toList_literalBlockText]
  exact .refused (by simp) (.accepted _ (reads_literalBlock hcs hrun hrest).map)

/-- A quoted text begins with a quotation mark. -/
theorem exists_head_quote (s : String) :
    ∃ c cs, (quote s).toList = c :: cs ∧ (c = '"' ∨ c = '\x27') := by
  simp only [quote]
  split
  · exact ⟨_, _, toList_basicText _, .inl rfl⟩
  split
  · exact ⟨_, _, toList_literalText _, .inr rfl⟩
  split
  · exact ⟨_, _, toList_basicBlockText _, .inl rfl⟩
  split
  · exact ⟨_, _, toList_literalBlockText _, .inr rfl⟩
  split
  · exact ⟨_, _, toList_basicBlockText _, .inl rfl⟩
  · exact ⟨_, _, toList_basicText _, .inl rfl⟩

/-- A quoted text is read as the text that was quoted. -/
theorem reads_quoted (s : String) (hd : rest.head? ≠ some '"') (hs : rest.head? ≠ some '\x27') :
    Reads quoted? (quote s).toList (some s) rest := by
  have hs' : some s = some (String.ofList s.toList) := by rw [String.ofList_toList]
  simp only [hs', quote, Bool.not_eq_true']
  split
  · exact reads_quoted_basicText _ hd
  split
  · next hne h =>
    obtain ⟨hc, hn, hq⟩ := h
    have hnq := not_mem_of_longestRun hq
    have hplain : ∀ c ∈ s.toList, isPlain c = true ∧ c ≠ '\x27' := fun c hmem =>
      ⟨isPlain_of_not_isControl (by simpa using List.any_eq_false.1 hc c hmem)
        (by rintro rfl; simp [hmem] at hn), by rintro rfl; exact hnq hmem⟩
    refine reads_quoted_literalText hplain (fun hnil => ?_) rest
    rw [hnil] at hne
    exact hne (by simp [longestRun])
  split
  · exact reads_quoted_basicBlockText _ hd
  split
  · next h => exact reads_quoted_literalBlockText (by simpa using h.1) h.2 hs
  split
  · exact reads_quoted_basicBlockText _ hd
  · exact reads_quoted_basicText _ hd

end TaskAllocation.Toml
