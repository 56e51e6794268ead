import TaskAllocation.Proofs.Exact

/-!
# What a block says about its changes

A block keeps the active member and the one before, and what its signals say about the last
change is read off these two.  So they have to tell of the tasks that were made active: of all
that have been offered to a block those that are members, in their order.  A task that is no
member is refused before anything is written, and leaves no trace.

That one member is active and no other, and that a part is not on the level of the split task,
is owed to the decomposition that the block comes from: the members of its blocks are three.

## Main definitions

* `Block.activateInPlace` — make a member active, one check and change after another.
* `Block.offer`, `Block.offers` — a block after one task or several have been offered.
* `Block.accepted` — those of them that were made active.
* `Block.recalling` — a block in which these tasks have been active, and no others.
* `Block.Tells` — the signals of a block tell of the tasks that have been active in it.

## Main results

* `Block.offer_eq_ok_iff`, `Block.offer_eq_error_iff` — activating step by step is activating at
  once.
* `Block.accepted_recalling`, `Block.offers_recalling` — the members are accepted, and recalled.
* `Decomposition.signals_offers` — **the signals of a block tell of the tasks that it accepted.**
-/

namespace TaskAllocation

namespace Block

variable {S : Type} {b c : Block S} {t p q : TaskId} {history : List TaskId}

/-! ### One check and change after another -/

/-- Computations that change a block step by step.  One that fails leaves behind what has been
changed before. -/
abbrev Changing (S α : Type) := ExceptT TopologyError (StateM (Block S)) α

/-- Make a member active, one check and change after another. -/
def activateInPlace (t : TaskId) : Changing S Unit := do
  let b ← get
  if !b.contains t then
    throw (.notMember b.root t)
  modify fun b => { b with last := b.active }
  modify fun b => { b with active := some t }

/-- Offer a task to a block: what it answers, and what it is afterwards. -/
def offer (b : Block S) (t : TaskId) : Except TopologyError Unit × Block S :=
  (activateInPlace t).run.run b

/-- What is looked at is the block as it stands. -/
theorem run_get_bind (next : Block S → Changing S Unit) (b : Block S) :
    (get >>= next).run.run b = (next b).run.run b := rfl

theorem offer_eq (b : Block S) (t : TaskId) :
    b.offer t = if b.contains t then (.ok (), { b with last := b.active, active := some t })
      else (.error (.notMember b.root t), b) := by
  rw [offer, activateInPlace, run_get_bind]
  cases b.contains t with
  | true => rfl
  | false => rfl

/-- **A task is accepted in place** if activating it goes well, with the same block. -/
theorem offer_eq_ok_iff : b.offer t = (.ok (), c) ↔ b.activate t = .ok c := by
  rw [offer_eq, activate_eq_ok_iff]
  cases b.contains t <;> simp [eq_comm]

/-- **A task is refused in place** if activating it fails, and the block stays. -/
theorem offer_eq_error_iff {error : TopologyError} :
    b.offer t = (.error error, c) ↔ b.activate t = .error error ∧ c = b := by
  rw [offer_eq, activate_eq_error_iff]
  cases b.contains t <;> simp [eq_comm]

/-! ### Task after task -/

/-- A block after these tasks have been offered to it, first to last. -/
def offers (b : Block S) (tasks : List TaskId) : Block S :=
  tasks.foldl (fun b t => (b.offer t).2) b

theorem offers_cons (b : Block S) (t : TaskId) (tasks : List TaskId) :
    b.offers (t :: tasks) = (b.offer t).2.offers tasks := rfl

/-- Those of the tasks offered to a block that it accepts, first to last. -/
def accepted : Block S → List TaskId → List TaskId
  | _, [] => []
  | b, t :: tasks =>
    match b.offer t with
    | (.ok _, b) => t :: b.accepted tasks
    | (.error _, b) => b.accepted tasks

/-- A block in which these tasks have been active, first to last, and no others. -/
def recalling (b : Block S) (history : List TaskId) : Block S :=
  { b with
    active := history.getLast?
    last := history.dropLast.getLast? }

/-- A block that has not been used recalls nothing. -/
theorem recalling_nil (hsound : b.Sound) (hfresh : b.active = none) : b.recalling [] = b := by
  have hlast : b.last = none := by
    by_contra hlast
    have hactive := hsound.active_of_last (Option.isSome_iff_ne_none.mpr hlast)
    rw [hfresh] at hactive
    cases hactive
  obtain ⟨root, first, second, active, last, wholeProb, firstProb⟩ := b
  subst hfresh hlast
  rfl

/-- A member that is offered is recalled from then on. -/
theorem offer_recalling_of_contains (ht : b.contains t = true) :
    (b.recalling history).offer t = (.ok (), b.recalling (history ++ [t])) := by
  rw [offer_eq_ok_iff, activate_eq_ok_iff]
  refine ⟨ht, ?_⟩
  simp [recalling]

/-- Any other task is refused and not recalled. -/
theorem offer_recalling_of_not_contains (ht : b.contains t = false) :
    (b.recalling history).offer t = (.error (.notMember b.root t), b.recalling history) := by
  rw [offer_eq_error_iff, activate_eq_error_iff]
  exact ⟨⟨ht, rfl⟩, rfl⟩

/-- **The members are accepted**, and no others. -/
theorem accepted_recalling (b : Block S) (history tasks : List TaskId) :
    (b.recalling history).accepted tasks = tasks.filter b.contains := by
  induction tasks generalizing history with
  | nil => rfl
  | cons t tasks ih =>
    rw [accepted]
    cases ht : b.contains t with
    | true =>
      rw [offer_recalling_of_contains ht, List.filter_cons_of_pos ht]
      exact congrArg (t :: ·) (ih _)
    | false =>
      rw [offer_recalling_of_not_contains ht, List.filter_cons_of_neg (by simp [ht])]
      exact ih _

/-- **What is accepted is recalled**, after what was recalled before. -/
theorem offers_recalling (b : Block S) (history tasks : List TaskId) :
    (b.recalling history).offers tasks =
      b.recalling (history ++ (b.recalling history).accepted tasks) := by
  rw [accepted_recalling]
  induction tasks generalizing history with
  | nil => rw [List.filter_nil, List.append_nil]; rfl
  | cons t tasks ih =>
    rw [offers_cons]
    cases ht : b.contains t with
    | true =>
      rw [offer_recalling_of_contains ht, List.filter_cons_of_pos ht, ih, List.append_assoc,
        List.singleton_append]
    | false =>
      rw [offer_recalling_of_not_contains ht, List.filter_cons_of_neg (by simp [ht]), ih]

/-- What is recalled are members. -/
theorem sound_recalling (hmember : ∀ t ∈ history, b.contains t = true) :
    (b.recalling history).Sound where
  active_mem t ht := hmember t (List.mem_of_getLast? ht)
  last_mem t ht := hmember t (List.dropLast_subset _ (List.mem_of_getLast? ht))
  active_of_last hlast := by
    rcases List.eq_nil_or_concat history with rfl | ⟨front, t, rfl⟩
    · cases hlast
    · simp [recalling]

/-! ### One member and no other -/

/-- The members of a block are three tasks. -/
structure Distinct (b : Block S) : Prop where
  root_ne_first : b.root ≠ b.first
  root_ne_second : b.root ≠ b.second
  first_ne_second : b.first ≠ b.second

theorem isPart_of_contains (ht : b.contains t = true) (hne : t ≠ b.root) : b.isPart t = true := by
  rw [contains_iff] at ht
  rw [isPart_iff]
  exact ht.resolve_left hne

theorem Distinct.ne_root_of_isPart (hb : b.Distinct) (hp : b.isPart p = true) : p ≠ b.root := by
  rcases (b.isPart_iff p).mp hp with rfl | rfl
  · exact hb.root_ne_first.symm
  · exact hb.root_ne_second.symm

/-- Whether each of the members is active, the split task first. -/
def actives (b : Block S) : List Bool := [b.rootActive, b.firstActive, b.secondActive]

theorem count_actives_of_none (h : b.active = none) : b.actives.count true = 0 := by
  simp [actives, rootActive, firstActive, secondActive, h]

/-- Of three members one is active. -/
theorem Distinct.count_actives (hb : b.Distinct) (h : b.active = some t)
    (ht : b.contains t = true) : b.actives.count true = 1 := by
  obtain ⟨hfirst, hsecond, hparts⟩ := hb
  rcases (b.contains_iff t).mp ht with rfl | rfl | rfl
  · simp [actives, rootActive, firstActive, secondActive, h, hfirst, hsecond]
  · simp [actives, rootActive, firstActive, secondActive, h, hfirst.symm, hparts]
  · simp [actives, rootActive, firstActive, secondActive, h, hsecond.symm, hparts.symm]

/-! ### What the last change did -/

section Change

variable (hlast : b.last = some p) (hactive : b.active = some q)
include hlast hactive

theorem taskChanged_iff : b.taskChanged = true ↔ p ≠ q := by
  rw [taskChanged, hlast, hactive, bne_iff_ne, ne_eq, Option.some.injEq, ne_comm]

theorem levelChanged_iff : b.levelChanged = true ↔ Xor (p = b.root) (q = b.root) := by
  rw [levelChanged, hlast, hactive, bne_iff_ne, ne_eq, Bool.eq_iff_iff, isRoot_iff, isRoot_iff,
    xor_iff_not_iff]

theorem wentToPart_iff : b.wentToPart = true ↔ p = b.root ∧ b.isPart q = true := by
  rw [wentToPart, hlast, hactive, Bool.and_eq_true, isRoot_iff]

end Change

/-- Where the level has changed there is an active member, and one before. -/
theorem exists_change (h : b.levelChanged = true ∨ b.wentToPart = true) :
    ∃ p q, b.last = some p ∧ b.active = some q := by
  match hp : b.last, hq : b.active with
  | some p, some q => exact ⟨p, q, rfl, rfl⟩
  | some p, none => simp [levelChanged, wentToPart, hp, hq] at h
  | none, _ => simp [levelChanged, wentToPart, hp] at h

/-- From one level to the other is from one task to another. -/
theorem taskChanged_of_levelChanged (h : b.levelChanged = true) : b.taskChanged = true := by
  obtain ⟨p, q, hp, hq⟩ := exists_change (.inl h)
  rw [levelChanged_iff hp hq] at h
  rw [taskChanged_iff hp hq]
  rintro rfl
  exact h.elim (fun h => h.2 h.1) fun h => h.2 h.1

/-- A part is not on the level of the split task. -/
theorem Distinct.levelChanged_of_wentToPart (hb : b.Distinct) (h : b.wentToPart = true) :
    b.levelChanged = true := by
  obtain ⟨p, q, hp, hq⟩ := exists_change (.inr h)
  obtain ⟨hroot, hpart⟩ := (wentToPart_iff hp hq).mp h
  rw [levelChanged_iff hp hq]
  exact .inl ⟨hroot, hb.ne_root_of_isPart hpart⟩

/-- From one level to the other, if it is not to a part, is from a part back to the split
task. -/
theorem Distinct.returned_iff (hb : b.Distinct) (hsound : b.Sound) :
    b.levelChanged = true ∧ b.wentToPart = false ↔
      ∃ p, b.isPart p = true ∧ b.last = some p ∧ b.active = some b.root := by
  constructor
  · rintro ⟨hlevel, hwent⟩
    obtain ⟨p, q, hp, hq⟩ := exists_change (.inl hlevel)
    rcases (levelChanged_iff hp hq).mp hlevel with ⟨hroot, hne⟩ | ⟨hroot, hne⟩
    · have hpart := isPart_of_contains (hsound.active_mem q hq) hne
      rw [(wentToPart_iff hp hq).mpr ⟨hroot, hpart⟩] at hwent
      cases hwent
    · exact ⟨p, isPart_of_contains (hsound.last_mem p hp) hne, hp, hroot ▸ hq⟩
  · rintro ⟨p, hpart, hp, hq⟩
    have hne := hb.ne_root_of_isPart hpart
    refine ⟨(levelChanged_iff hp hq).mpr (.inr ⟨rfl, hne⟩), ?_⟩
    rw [← Bool.not_eq_true, wentToPart_iff hp hq]
    exact fun h => hne h.1

/-- The signals of a block tell of the tasks that have been active in it, first to last. -/
structure Tells (b : Block S) (history : List TaskId) : Prop where
  /-- One member is active, if any has been, and no other. -/
  count_actives : b.actives.count true = if history = [] then 0 else 1
  /-- The task has changed if the last two differ. -/
  taskChanged_iff : ∀ front p q, history = front ++ [p, q] → (b.taskChanged = true ↔ p ≠ q)
  /-- The level has changed if just one of them is the split task. -/
  levelChanged_iff : ∀ front p q, history = front ++ [p, q] →
    (b.levelChanged = true ↔ Xor (p = b.root) (q = b.root))
  /-- A part was taken if the last is one and the split task was before it. -/
  wentToPart_iff : ∀ front p q, history = front ++ [p, q] →
    (b.wentToPart = true ↔ p = b.root ∧ (q = b.first ∨ q = b.second))
  /-- Taking a part is a change of level. -/
  levelChanged_of_wentToPart : b.wentToPart = true → b.levelChanged = true
  /-- A change of level is a change of task. -/
  taskChanged_of_levelChanged : b.levelChanged = true → b.taskChanged = true
  /-- Any other change of level leads from a part back to the split task. -/
  returned_iff : b.levelChanged = true ∧ b.wentToPart = false ↔
    ∃ front p, history = front ++ [p, b.root] ∧ (p = b.first ∨ p = b.second)

/-- The last two of these tasks are what a block keeps. -/
theorem recalling_eq_append_iff :
    (b.recalling history).last = some p ∧ (b.recalling history).active = some q ↔
      ∃ front, history = front ++ [p, q] := by
  constructor
  · rintro ⟨hlast, hactive⟩
    obtain ⟨most, rfl⟩ := List.getLast?_eq_some_iff.mp hactive
    rw [recalling, List.dropLast_concat] at hlast
    obtain ⟨front, rfl⟩ := List.getLast?_eq_some_iff.mp hlast
    exact ⟨front, by rw [List.append_assoc, List.singleton_append]⟩
  · rintro ⟨front, rfl⟩
    simp [recalling]

/-- **The signals tell of what is recalled**, in a block of three members. -/
theorem Distinct.tells_recalling (hb : b.Distinct)
    (hmember : ∀ t ∈ history, b.contains t = true) : (b.recalling history).Tells history := by
  have hdistinct : (b.recalling history).Distinct := ⟨hb.1, hb.2, hb.3⟩
  have hkept : ∀ front p q, history = front ++ [p, q] →
      (b.recalling history).last = some p ∧ (b.recalling history).active = some q := by
    intro front p q h
    exact recalling_eq_append_iff.mpr ⟨front, h⟩
  constructor
  case count_actives =>
    split
    · next hnil =>
      subst hnil
      exact count_actives_of_none rfl
    · next hne =>
      have hactive := List.getLast?_eq_getLast_of_ne_nil hne
      exact hdistinct.count_actives hactive (hmember _ (List.getLast_mem hne))
  case taskChanged_iff =>
    intro front p q h
    exact Block.taskChanged_iff (hkept front p q h).1 (hkept front p q h).2
  case levelChanged_iff =>
    intro front p q h
    exact Block.levelChanged_iff (hkept front p q h).1 (hkept front p q h).2
  case wentToPart_iff =>
    intro front p q h
    rw [← isPart_iff]
    exact Block.wentToPart_iff (hkept front p q h).1 (hkept front p q h).2
  case levelChanged_of_wentToPart => exact hdistinct.levelChanged_of_wentToPart
  case taskChanged_of_levelChanged => exact Block.taskChanged_of_levelChanged
  case returned_iff =>
    rw [hdistinct.returned_iff (sound_recalling hmember)]
    simp only [recalling_eq_append_iff, isPart_iff]
    constructor
    · rintro ⟨p, hpart, front, h⟩
      exact ⟨front, p, h, hpart⟩
    · rintro ⟨front, p, h, hpart⟩
      exact ⟨p, hpart, front, h⟩

end Block

namespace Decomposition

variable {S R : Type}

theorem Coherent.distinct {d : Decomposition S} {k : BlockId} {b : Block S} (h : d.Coherent)
    (hb : d.block? k = some b) : b.Distinct := by
  obtain ⟨hfirst, hsecond, hparts⟩ := h.members_ne hb
  exact ⟨hfirst, hsecond, hparts⟩

/-- **The signals of a block tell of the tasks that it accepted.**  Offer any tasks, one after
another, to a block that has not been used, in a decomposition that was built by any calls.  At
any time it accepts its members, as if they were made active at once, and refuses all others and
is as before then; the last two that it accepted are all that it keeps of them, and its signals
are about these. -/
theorem signals_offers [Scalar S] [IndexSource R] [UnitSource R S] (root : TaskSpec S)
    (curve : Logistic S) (calls : List (Call S R)) {k : BlockId} {b : Block S}
    (hb : ((single root curve).run calls).block? k = some b) (hfresh : b.active = none)
    (tasks : List TaskId) :
    (∀ t c, (b.offers tasks).offer t = (.ok (), c) ↔ (b.offers tasks).activate t = .ok c) ∧
      (∀ t, (t = b.root ∨ t = b.first ∨ t = b.second) →
        ((b.offers tasks).offer t).1 = .ok ()) ∧
      (∀ t, ¬ (t = b.root ∨ t = b.first ∨ t = b.second) →
        (b.offers tasks).offer t = (.error (.notMember b.root t), b.offers tasks)) ∧
      b.accepted tasks = tasks.filter (fun t => t = b.root ∨ t = b.first ∨ t = b.second) ∧
      b.offers tasks = { b with
        active := (b.accepted tasks).getLast?
        last := (b.accepted tasks).dropLast.getLast? } ∧
      (b.offers tasks).Tells (b.accepted tasks) := by
  have hd : ((single root curve).run calls).Coherent := Coherent.run (.single root curve) calls
  have hnil := Block.recalling_nil (hd.sound k b hb) hfresh
  have hoffers := b.offers_recalling [] tasks
  have haccepted := b.accepted_recalling [] tasks
  rw [hnil, List.nil_append] at hoffers
  rw [hnil] at haccepted
  rw [hoffers]
  refine ⟨fun t c => Block.offer_eq_ok_iff, ?_, ?_, ?_, rfl, ?_⟩
  · intro t ht
    rw [Block.offer_recalling_of_contains ((b.contains_iff t).mpr ht)]
  · intro t ht
    rw [← b.contains_iff t, Bool.not_eq_true] at ht
    exact Block.offer_recalling_of_not_contains ht
  · rw [haccepted]
    refine List.filter_congr fun t _ => ?_
    rw [Bool.eq_iff_iff, b.contains_iff, decide_eq_true_iff]
  · refine (hd.distinct hb).tells_recalling fun t ht => ?_
    rw [haccepted] at ht
    exact (List.mem_filter.mp ht).2

section Example

attribute [local instance] Scalar.rational

/-- The block of the root is offered its first part, a task of another block, the root and its
first part again: that one is active, and was taken after the root. -/
theorem signals_offers_three_levels :
    ∃ b, (threeLevels []).block? 0 = some b ∧ b.active = none ∧
      b.accepted [1, 3, 0, 1] = [1, 0, 1] ∧ (b.offers [1, 3, 0, 1]).active = some 1 ∧
      (b.offers [1, 3, 0, 1]).wentToPart = true := by
  have hnew : (threeLevels []).block? 0 = some (.new 0 1 2) := by decide +kernel
  obtain ⟨-, -, -, haccepted, hoffers, htells⟩ := signals_offers ⟨"root", 0.5, 4⟩ ⟨1.5, 1.0, 1.0⟩
    threeLevelCalls (show _ = some (.new 0 1 2) from hnew) rfl [1, 3, 0, 1]
  have hhistory : Block.accepted (Block.new 0 1 2 : Block ℚ) [1, 3, 0, 1] = [1, 0, 1] := by
    rw [haccepted]
    rfl
  refine ⟨_, hnew, rfl, hhistory, by rw [hoffers, hhistory]; rfl, ?_⟩
  rw [htells.wentToPart_iff [1] 0 1 hhistory, hoffers]
  exact ⟨rfl, .inl rfl⟩

end Example

end Decomposition

end TaskAllocation
