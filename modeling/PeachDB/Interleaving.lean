import Mathlib.Data.List.Basic
import Mathlib.Logic.Hydra

/-!
# Interleavings of tasks over a shared state

A pool holds a shared state and the local states of its tasks. In one step a
task performs one atomic section on the shared state; the section may depend
on a choice of the environment. A guard restricts which steps a run may take.
The trace of a run records the moving tasks, each as it was before its step.
-/

namespace PeachDB.Interleaving

variable {W L C : Type*}

/-- A shared state and the tasks working on it. -/
structure Pool (W L : Type*) where
  /-- State that every task can see. -/
  shared : W
  /-- Local states of the tasks, finished ones included. -/
  tasks : List L
  deriving DecidableEq

/-- Semantics of one atomic section; a task that cannot move has none. -/
abbrev Exec (C W L : Type*) := C → W → L → Option (W × L)

/-- What a run assumes of a step: the shared state, the other tasks and the
task about to move. -/
abbrev Guard (W L : Type*) := W → List L → L → Prop

/-- The guard of unrestricted runs. -/
def anyStep : Guard W L := fun _ _ _ => True

instance (w : W) (others : List L) (t : L) : Decidable (anyStep w others t) :=
  inferInstanceAs (Decidable True)

/-- One task, standing between `pre` and `post`, performs one section. -/
inductive Step (exec : Exec C W L) (guard : Guard W L) : Pool W L → L → Pool W L → Prop
  /-- One task moves, as the guard allows. -/
  | move (pre post : List L) {w w' : W} {t t' : L} (choice : C)
      (hguard : guard w (pre ++ post) t) (hexec : exec choice w t = some (w', t')) :
      Step exec guard ⟨w, pre ++ t :: post⟩ t ⟨w', pre ++ t' :: post⟩

/-- A finite interleaving, with the tasks in the order in which they moved. -/
inductive Run (exec : Exec C W L) (guard : Guard W L) (c : Pool W L) : List L → Pool W L → Prop
  /-- Nothing has happened. -/
  | refl : Run exec guard c [] c
  /-- One more step. -/
  | snoc {trace : List L} {c₁ c₂ : Pool W L} {t : L} (hrun : Run exec guard c trace c₁)
      (hstep : Step exec guard c₁ t c₂) : Run exec guard c (trace ++ [t]) c₂

variable {exec : Exec C W L} {guard guard' : Guard W L} {c c₁ c₂ : Pool W L} {trace : List L}

/-- The tasks of a pool are the one at a place and the others. -/
theorem mem_tasks_iff {pre post : List L} {t u : L} :
    u ∈ pre ++ t :: post ↔ u = t ∨ u ∈ pre ++ post := by
  simp only [List.mem_append, List.mem_cons]
  tauto

/-- A step under a guard is one under a weaker guard. -/
theorem Step.mono (hg : ∀ w others t, guard w others t → guard' w others t) {t : L}
    (h : Step exec guard c₁ t c₂) : Step exec guard' c₁ t c₂ := by
  cases h with
  | move pre post choice hguard hexec => exact .move pre post choice (hg _ _ _ hguard) hexec

/-- A run under a guard is a run under every weaker guard. -/
theorem Run.mono (hg : ∀ w others t, guard w others t → guard' w others t)
    (h : Run exec guard c trace c₁) : Run exec guard' c trace c₁ := by
  induction h with
  | refl => exact .refl
  | snoc _ hstep ih => exact .snoc ih (hstep.mono hg)

/-- Two runs behind one another are a run. -/
theorem Run.append {trace' : List L} (h : Run exec guard c trace c₁)
    (h' : Run exec guard c₁ trace' c₂) : Run exec guard c (trace ++ trace') c₂ := by
  induction h' with
  | refl => rwa [List.append_nil]
  | snoc _ hstep ih =>
    rw [← List.append_assoc]
    exact .snoc ih hstep

/-- What every step keeps, every run keeps; the invariant may speak of the
trace so far. -/
theorem Run.invariant {I : List L → Pool W L → Prop} (h : Run exec guard c trace c₁)
    (hinit : I [] c)
    (hstep : ∀ trace c₁ t c₂, I trace c₁ → Step exec guard c₁ t c₂ →
      I (trace ++ [t]) c₂) :
    I trace c₁ := by
  induction h with
  | refl => exact hinit
  | snoc _ hs ih => exact hstep _ _ _ _ ih hs

/-- The rule of local assertions: a shared invariant and one assertion for
each task hold along a run when each section keeps the invariant, leads from
its own assertion to the next one and leaves those of the others true. All of
them may speak of an abstract state `a` that the program does not have. -/
theorem Run.pool_invariant {A : Type*} {G : A → W → Prop} {P : A → W → L → Prop}
    (h : Run exec guard c trace c₁)
    (hstep : ∀ a choice w others t w' t', guard w others t → exec choice w t = some (w', t') →
      G a w → P a w t → (∀ u ∈ others, P a w u) →
      ∃ a', G a' w' ∧ P a' w' t' ∧ ∀ u ∈ others, P a' w' u)
    (hinit : ∃ a, G a c.shared ∧ ∀ t ∈ c.tasks, P a c.shared t) :
    ∃ a, G a c₁.shared ∧ ∀ t ∈ c₁.tasks, P a c₁.shared t := by
  refine h.invariant (I := fun _ c₁ => ∃ a, G a c₁.shared ∧
    ∀ t ∈ c₁.tasks, P a c₁.shared t) hinit ?_
  rintro _ _ _ _ ⟨a, hG, hP⟩ ⟨pre, post, choice, hguard, hexec⟩
  simp only [mem_tasks_iff] at hP ⊢
  obtain ⟨a', hG', hown, hothers⟩ := hstep a _ _ _ _ _ _ hguard hexec hG (hP _ (.inl rfl))
    fun u hu => hP u (.inr hu)
  refine ⟨a', hG', fun u hu => ?_⟩
  rcases hu with rfl | hu
  · exact hown
  · exact hothers u hu

/-- When every section makes its task smaller, the tasks come to an end. -/
theorem wellFounded_step {r : L → L → Prop} (hr : WellFounded r)
    (hexec : ∀ choice w t w' t', exec choice w t = some (w', t') → r t' t) :
    WellFounded fun c' c => ∃ t, Step exec guard c t c' := by
  refine Subrelation.wf ?_ (InvImage.wf (fun c : Pool W L => (c.tasks : Multiset L)) hr.cutExpand)
  rintro c' c ⟨t, ⟨pre, post, choice, hguard, hmove⟩⟩
  have hsmaller := Relation.cutExpand_add_single ((pre ++ post : List L) : Multiset L)
    (hexec _ _ _ _ _ hmove)
  have hplace : ∀ u : L, ((pre ++ u :: post : List L) : Multiset L) =
      ((pre ++ post : List L) : Multiset L) + {u} := by
    intro u
    rw [Multiset.add_comm, Multiset.singleton_add, Multiset.cons_coe, Multiset.coe_eq_coe]
    exact List.perm_middle
  rw [← hplace, ← hplace] at hsmaller
  exact hsmaller

/-- When every section uses some of the budget `b` of its task, a run is not
longer than the budgets of its tasks. -/
theorem Run.length_le {P : L → Prop} {b : L → ℕ} (h : Run exec guard c trace c₁)
    (hstep : ∀ choice w others t w' t', guard w others t → exec choice w t = some (w', t') →
      P t →
      P t' ∧ b t' < b t)
    (hinit : ∀ t ∈ c.tasks, P t) :
    trace.length + (c₁.tasks.map b).sum ≤ (c.tasks.map b).sum := by
  have hkept : (∀ t ∈ c₁.tasks, P t) ∧
      trace.length + (c₁.tasks.map b).sum ≤ (c.tasks.map b).sum := by
    refine h.invariant (I := fun trace c₁ => (∀ t ∈ c₁.tasks, P t) ∧
      trace.length + (c₁.tasks.map b).sum ≤ (c.tasks.map b).sum) ⟨hinit, by simp⟩ ?_
    rintro trace _ t _ ⟨hP, hle⟩ ⟨pre, post, choice, hguard, hexec⟩
    simp only [mem_tasks_iff] at hP ⊢
    obtain ⟨hown, hless⟩ := hstep _ _ _ _ _ _ hguard hexec (hP _ (.inl rfl))
    refine ⟨fun u hu => ?_, ?_⟩
    · rcases hu with rfl | hu
      · exact hown
      · exact hP u (.inr hu)
    · simp only [List.map_append, List.map_cons, List.sum_append, List.sum_cons,
        List.length_append, List.length_singleton] at hle ⊢
      omega
  exact hkept.2

/-- A task that runs alone keeps what each of its sections keeps; what it keeps
may speak of the sections so far. -/
theorem Run.solo {P : List L → W → L → Prop} {w : W} {t : L}
    (h : Run exec guard ⟨w, [t]⟩ trace c₁)
    (hstep : ∀ trace choice w t w' t', exec choice w t = some (w', t') → P trace w t →
      P (trace ++ [t]) w' t') (hinit : P [] w t) :
    ∃ w' t', c₁ = ⟨w', [t']⟩ ∧ P trace w' t' := by
  refine h.invariant (I := fun trace c₁ => ∃ w' t', c₁ = ⟨w', [t']⟩ ∧ P trace w' t')
    ⟨w, t, rfl, hinit⟩ ?_
  rintro _ _ _ _ ⟨w', t', rfl, hP⟩ hs
  generalize hc : (⟨w', [t']⟩ : Pool W L) = c₁ at hs
  cases hs with
  | move pre post choice hguard hexec =>
    obtain ⟨rfl, htasks⟩ := Pool.mk.inj hc
    rcases List.singleton_eq_append_iff.mp htasks with ⟨rfl, heq⟩ | ⟨-, hnil⟩
    · obtain ⟨rfl, rfl⟩ := List.cons.inj heq
      exact ⟨_, _, rfl, hstep _ _ _ _ _ _ hexec hP⟩
    · cases hnil

/-- The tasks of a pool in which one has been replaced. -/
theorem getElem?_replaced {pre post : List L} {t : L} (t' : L) {i : ℕ} {u : L}
    (h : (pre ++ t' :: post)[i]? = some u) :
    (i = pre.length ∧ u = t') ∨ i ≠ pre.length ∧ (pre ++ t :: post)[i]? = some u := by
  rcases Nat.lt_trichotomy i pre.length with hlt | heq | hgt
  · rw [List.getElem?_append_left hlt] at h
    exact .inr ⟨Nat.ne_of_lt hlt, by rwa [List.getElem?_append_left hlt]⟩
  · rw [heq, List.getElem?_append_right (Nat.le_refl _), Nat.sub_self, List.getElem?_cons_zero]
      at h
    exact .inl ⟨heq, (Option.some.inj h).symm⟩
  · obtain ⟨d, rfl⟩ := Nat.exists_eq_add_of_lt hgt
    have hd : pre.length + d + 1 - pre.length = d + 1 := by omega
    refine .inr ⟨by omega, ?_⟩
    rw [List.getElem?_append_right (by omega), hd, List.getElem?_cons_succ] at h
    rwa [List.getElem?_append_right (by omega), hd, List.getElem?_cons_succ]

/-- The other tasks are those at the other places. -/
theorem mem_others_iff {pre post : List L} {t u : L} :
    u ∈ pre ++ post ↔ ∃ i : ℕ, i ≠ pre.length ∧ (pre ++ t :: post)[i]? = some u := by
  rw [List.mem_append]
  constructor
  · rintro (hu | hu)
    · obtain ⟨i, hi, hui⟩ := List.getElem_of_mem hu
      exact ⟨i, by omega, by rw [List.getElem?_append_left hi, List.getElem?_eq_getElem hi, hui]⟩
    · obtain ⟨i, hui⟩ := List.getElem?_of_mem hu
      have hbehind : pre.length + (i + 1) - pre.length = i + 1 := by omega
      exact ⟨pre.length + (i + 1), by omega,
        by rw [List.getElem?_append_right (by omega), hbehind, List.getElem?_cons_succ, hui]⟩
  · rintro ⟨i, hne, hu⟩
    rcases Nat.lt_or_gt_of_ne hne with hlt | hgt
    · rw [List.getElem?_append_left hlt] at hu
      exact .inl (List.mem_of_getElem? hu)
    · obtain ⟨d, rfl⟩ := Nat.exists_eq_add_of_lt hgt
      have hbehind : pre.length + d + 1 - pre.length = d + 1 := by omega
      rw [List.getElem?_append_right (by omega), hbehind, List.getElem?_cons_succ] at hu
      exact .inr (List.mem_of_getElem? hu)

/-- The rule of exclusion: no task is busy, or exactly one is. `I` holds of the
idle tasks, `Q` when all are idle and `B` of the busy task; `Q` and `B` may
speak of the trace so far. -/
theorem Run.exclusive {I : L → Prop} {Q : List L → W → Prop} {B : List L → W → L → Prop}
    (h : Run exec guard c trace c₁)
    (hquiet : ∀ trace choice w others t w' t', guard w others t →
      exec choice w t = some (w', t') →
      Q trace w → I t → (Q (trace ++ [t]) w' ∧ I t') ∨ B (trace ++ [t]) w' t')
    (hbeside : ∀ trace choice w others t u w' t', guard w others t →
      exec choice w t = some (w', t') →
      u ∈ others → B trace w u → I t → B (trace ++ [t]) w' u ∧ I t')
    (hbusy : ∀ trace choice w t w' t', exec choice w t = some (w', t') → B trace w t →
      (Q (trace ++ [t]) w' ∧ I t') ∨ B (trace ++ [t]) w' t')
    (hinit : Q [] c.shared ∧ ∀ t ∈ c.tasks, I t) :
    (Q trace c₁.shared ∧ ∀ t ∈ c₁.tasks, I t) ∨
      ∃ (i : ℕ) (t : L), c₁.tasks[i]? = some t ∧ B trace c₁.shared t ∧
        ∀ j u, j ≠ i → c₁.tasks[j]? = some u → I u := by
  refine h.invariant (I := fun trace c₁ => (Q trace c₁.shared ∧ ∀ t ∈ c₁.tasks, I t) ∨
    ∃ (i : ℕ) (t : L), c₁.tasks[i]? = some t ∧ B trace c₁.shared t ∧
    ∀ j u, j ≠ i → c₁.tasks[j]? = some u → I u)
    (.inl hinit) ?_
  rintro trace _ t _ hbefore ⟨pre, post, choice, hguard, hexec⟩
  rename_i w w' t'
  have hown : (pre ++ t :: post)[pre.length]? = some t := by
    rw [List.getElem?_append_right (Nat.le_refl _), Nat.sub_self, List.getElem?_cons_zero]
  have hown' : (pre ++ t' :: post)[pre.length]? = some t' := by
    rw [List.getElem?_append_right (Nat.le_refl _), Nat.sub_self, List.getElem?_cons_zero]
  -- the others stay idle when the moving task is the busy one, or becomes it
  have hafter : (∀ u ∈ pre ++ post, I u) →
      (Q (trace ++ [t]) w' ∧ I t') ∨ B (trace ++ [t]) w' t' →
      (Q (trace ++ [t]) w' ∧ ∀ u ∈ pre ++ t' :: post, I u) ∨
        ∃ (i : ℕ) (u : L), (pre ++ t' :: post)[i]? = some u ∧ B (trace ++ [t]) w' u ∧
          ∀ j v, j ≠ i → (pre ++ t' :: post)[j]? = some v → I v := by
    rintro hothers (⟨hQ, hidle⟩ | hB)
    · refine .inl ⟨hQ, fun u hu => ?_⟩
      rcases mem_tasks_iff.mp hu with rfl | hu
      · exact hidle
      · exact hothers u hu
    · exact .inr ⟨_, _, hown', hB,
        fun j v hj hv => hothers v (mem_others_iff.mpr ⟨j, hj, hv⟩)⟩
  rcases hbefore with ⟨hQ, hidle⟩ | ⟨i, u, hu, hB, hidle⟩
  · simp only [mem_tasks_iff] at hidle
    exact hafter (fun u hu => hidle u (.inr hu))
      (hquiet _ _ _ _ _ _ _ hguard hexec hQ (hidle t (.inl rfl)))
  · by_cases hi : i = pre.length
    · subst hi
      obtain rfl := Option.some.inj (hown.symm.trans hu)
      refine hafter (fun v hv => ?_) (hbusy _ _ _ _ _ _ hexec hB)
      obtain ⟨j, hj, hv⟩ := mem_others_iff (t := t).mp hv
      exact hidle j v hj hv
    · obtain ⟨hB', hidle'⟩ :=
        hbeside _ _ _ _ _ _ _ _ hguard hexec (mem_others_iff.mpr ⟨i, hi, hu⟩) hB
        (hidle _ _ (Ne.symm hi) hown)
      refine .inr ⟨i, u, ?_, hB', fun j v hj hv => ?_⟩
      · exact ((getElem?_replaced (t := t') t hu).resolve_left fun h => hi h.1).2
      · rcases getElem?_replaced (t := t) t' hv with ⟨-, rfl⟩ | ⟨-, hv⟩
        · exact hidle'
        · exact hidle j v hj hv

/-- A step of the task at a place. -/
theorem Step.of_place {i : ℕ} {t t' : L} {w' : W} {choice : C} (htask : c.tasks[i]? = some t)
    (hguard : guard c.shared (c.tasks.take i ++ c.tasks.drop (i + 1)) t)
    (hexec : exec choice c.shared t = some (w', t')) :
    Step exec guard c t ⟨w', c.tasks.set i t'⟩ := by
  obtain ⟨hi, hti⟩ := List.getElem?_eq_some_iff.mp htask
  have hsplit : c.tasks = c.tasks.take i ++ t :: c.tasks.drop (i + 1) := by
    rw [← hti, ← List.drop_eq_getElem_cons hi, List.take_append_drop]
  have hstep := Step.move (c.tasks.take i) (c.tasks.drop (i + 1)) choice hguard hexec
  rw [← hsplit] at hstep
  rwa [List.set_eq_take_append_cons_drop, if_pos hi]

/-- Every step is one of the task at some place. -/
theorem Step.exists_place {t : L} (h : Step exec guard c t c₁) : ∃ i choice t',
    c.tasks[i]? = some t ∧ exec choice c.shared t = some (c₁.shared, t') ∧
      c₁.tasks = c.tasks.set i t' := by
  cases h with
  | move pre post choice hguard hexec =>
    refine ⟨pre.length, choice, _, ?_, hexec, ?_⟩
    · rw [List.getElem?_append_right (Nat.le_refl _), Nat.sub_self, List.getElem?_cons_zero]
    · rw [List.set_append_right _ _ (Nat.le_refl _), Nat.sub_self, List.set_cons_zero]

/-- Execute a schedule: at each entry the task at the given place moves under
the given choice. -/
def drive (exec : Exec C W L) (guard : Guard W L) [∀ w others t, Decidable (guard w others t)] :
    List (ℕ × C) → Pool W L → Option (List L × Pool W L)
  | [], c => some ([], c)
  | (i, choice) :: schedule, c =>
    match c.tasks[i]? with
    | none => none
    | some t =>
      if guard c.shared (c.tasks.take i ++ c.tasks.drop (i + 1)) t then
        match exec choice c.shared t with
        | none => none
        | some (w', t') =>
          (drive exec guard schedule ⟨w', c.tasks.take i ++ t' :: c.tasks.drop (i + 1)⟩).map
            fun out => (t :: out.1, out.2)
      else none

/-- A schedule that executes is a run. -/
theorem run_of_drive [∀ w others t, Decidable (guard w others t)] {schedule : List (ℕ × C)}
    (h : drive exec guard schedule c = some (trace, c₁)) : Run exec guard c trace c₁ := by
  induction schedule generalizing c trace with
  | nil =>
    cases h
    exact .refl
  | cons e schedule ih =>
    obtain ⟨i, choice⟩ := e
    unfold drive at h
    split at h
    · cases h
    · rename_i t ht
      split at h
      · rename_i hguard
        split at h
        · cases h
        · rename_i w' t' hexec
          obtain ⟨⟨trace', c'⟩, hrest, heq⟩ := Option.map_eq_some_iff.mp h
          cases heq
          have hsplit : c.tasks = c.tasks.take i ++ t :: c.tasks.drop (i + 1) := by
            obtain ⟨hi, hti⟩ := List.getElem?_eq_some_iff.mp ht
            rw [← hti, ← List.drop_eq_getElem_cons hi, List.take_append_drop]
          have hstep : Step exec guard c t ⟨w',
              c.tasks.take i ++ t' :: c.tasks.drop (i + 1)⟩ := by
            have hm := Step.move (c.tasks.take i) (c.tasks.drop (i + 1)) choice hguard hexec
            rwa [← hsplit] at hm
          exact (Run.refl.snoc hstep).append (ih hrest)
      · cases h

/-- The run of a schedule that is known to execute. -/
theorem run_get_drive [∀ w others t, Decidable (guard w others t)] {schedule : List (ℕ × C)}
    (h : (drive exec guard schedule c).isSome) :
    Run exec guard c ((drive exec guard schedule c).get h).1
      ((drive exec guard schedule c).get h).2 :=
  run_of_drive (Option.some_get h).symm

/-- A behaviour: the pools of a run at all times. At each time one task performs
a section, or nothing happens any more or for a while. -/
def Behaviour (exec : Exec C W L) (guard : Guard W L) (σ : ℕ → Pool W L) : Prop :=
  ∀ n, σ (n + 1) = σ n ∨ ∃ t, Step exec guard (σ n) t (σ (n + 1))

/-- The pools of a behaviour are reached by runs. -/
theorem Behaviour.run {σ : ℕ → Pool W L} (hσ : Behaviour exec guard σ) (n : ℕ) :
    ∃ trace, Run exec guard (σ 0) trace (σ n) := by
  induction n with
  | zero => exact ⟨[], .refl⟩
  | succ n ih =>
    obtain ⟨trace, hrun⟩ := ih
    rcases hσ n with heq | ⟨t, hstep⟩
    · exact ⟨trace, by rwa [heq]⟩
    · exact ⟨trace ++ [t], hrun.snoc hstep⟩

/-- The behaviour that executes a schedule, entry by entry. -/
def played (exec : Exec C W L) (guard : Guard W L) [∀ w others t, Decidable (guard w others t)] :
    List (ℕ × C) → Pool W L → ℕ → Pool W L
  | [], c, _ => c
  | _ :: _, c, 0 => c
  | e :: schedule, c, n + 1 =>
    match drive exec guard [e] c with
    | some (_, c') => played exec guard schedule c' n
    | none => c

/-- A behaviour begins with the pool that it is executed on. -/
theorem played_zero [∀ w others t, Decidable (guard w others t)] (schedule : List (ℕ × C))
    (c : Pool W L) : played exec guard schedule c 0 = c := by
  cases schedule <;> rfl

/-- An entry that executes alone is one step. -/
theorem step_of_drive [∀ w others t, Decidable (guard w others t)] {e : ℕ × C}
    (h : drive exec guard [e] c = some (trace, c₁)) : ∃ t, Step exec guard c t c₁ := by
  obtain ⟨i, choice⟩ := e
  unfold drive at h
  split at h
  · cases h
  · rename_i t ht
    split at h
    · rename_i hguard
      split at h
      · cases h
      · rename_i w' t' hexec
        cases h
        have hstep := Step.of_place ht hguard hexec
        rw [List.set_eq_take_append_cons_drop, if_pos (List.getElem?_eq_some_iff.mp ht).1] at hstep
        exact ⟨t, hstep⟩
    · cases h

/-- What is executed is a behaviour. -/
theorem behaviour_played [∀ w others t, Decidable (guard w others t)] (schedule : List (ℕ × C))
    (c : Pool W L) : Behaviour exec guard (played exec guard schedule c) := by
  intro n
  induction schedule generalizing c n with
  | nil => exact .inl rfl
  | cons e schedule ih =>
    cases hdrive : drive exec guard [e] c with
    | none =>
      have hstays : ∀ m, played exec guard (e :: schedule) c m = c := by
        intro m
        cases m with
        | zero => rfl
        | succ m => rw [played, hdrive]
      exact .inl (by rw [hstays, hstays])
    | some out =>
      obtain ⟨trace, c'⟩ := out
      have hmoves : ∀ m, played exec guard (e :: schedule) c (m + 1) =
          played exec guard schedule c' m := by
        intro m
        rw [played, hdrive]
      rw [hmoves]
      cases n with
      | zero =>
        rw [played_zero]
        exact .inr (step_of_drive hdrive)
      | succ n =>
        rw [hmoves]
        exact ih c' n

end PeachDB.Interleaving
