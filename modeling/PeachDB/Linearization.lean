import PeachDB.Interleaving

/-!
# Linearization of a run

Tasks that share a state call operations on an object that this state stands
for. A run is linearizable when the calls that have taken effect have an order
in which the object, used by one task at a time, gives the same answers. Each
section of a task is taken to do at most one operation; the order is the one in
which these sections are executed, so it agrees with real time.
-/

namespace PeachDB.Linearization

open Interleaving

variable {A O R W L C : Type*}

/-- An operation that has taken effect: the place of the task that called it,
the call and its answer. -/
structure Event (O R : Type*) where
  /-- The task that performs it. -/
  place : ℕ
  /-- The operation. -/
  op : O
  /-- The response to it. -/
  res : R

/-- A history that an object with one user at a time allows, and the object
behind it. -/
inductive Legal (spec : A → O → R → A → Prop) (a : A) : List (Event O R) → A → Prop
  /-- Nothing has happened. -/
  | nil : Legal spec a [] a
  /-- One more event. -/
  | snoc {h : List (Event O R)} {e : Event O R} {a₁ a₂ : A} (hbefore : Legal spec a h a₁)
      (hlast : spec a₁ e.op e.res a₂) : Legal spec a (h ++ [e]) a₂

/-- The calls of one task, in order. -/
def callsOf (i : ℕ) (h : List (Event O R)) : List (O × R) :=
  h.filterMap fun e => if e.place = i then some (e.op, e.res) else none

/-- An empty history has no calls. -/
@[simp] theorem callsOf_nil (i : ℕ) : callsOf i ([] : List (Event O R)) = [] := rfl

/-- Calls are listed in order. -/
theorem callsOf_append (i : ℕ) (h h' : List (Event O R)) :
    callsOf i (h ++ h') = callsOf i h ++ callsOf i h' :=
  List.filterMap_append

/-- A single event is a call of its own place. -/
theorem callsOf_singleton (i : ℕ) (e : Event O R) :
    callsOf i [e] = if e.place = i then [(e.op, e.res)] else [] := by
  by_cases he : e.place = i
  · simp [callsOf, he]
  · simp [callsOf, he]

/-- Every event is among the calls of its task. -/
theorem mem_callsOf {h : List (Event O R)} {e : Event O R} (he : e ∈ h) :
    (e.op, e.res) ∈ callsOf e.place h :=
  List.mem_filterMap.mpr ⟨e, he, if_pos rfl⟩

/-- The event with its call under another name. -/
def Event.rename {O' : Type*} (f : O → O') (e : Event O R) : Event O' R :=
  ⟨e.place, f e.op, e.res⟩

/-- Renaming the operations renames the calls. -/
theorem callsOf_rename {O' : Type*} (f : O → O') (i : ℕ) (h : List (Event O R)) :
    callsOf i (h.map (Event.rename f)) = (callsOf i h).map fun call => (f call.1, call.2) := by
  rw [callsOf, callsOf, List.filterMap_map, List.map_filterMap]
  congr 1
  funext e
  by_cases he : e.place = i
  · simp [Event.rename, he]
  · simp [Event.rename, he]

variable {spec : A → O → R → A → Prop} {a a₁ a₂ : A}

/-- Two histories behind one another. -/
theorem Legal.append {h h' : List (Event O R)} (hfirst : Legal spec a h a₁)
    (hrest : Legal spec a₁ h' a₂) :
    Legal spec a (h ++ h') a₂ := by
  induction hrest with
  | nil => rwa [List.append_nil]
  | snoc _ hlast ih =>
    rw [← List.append_assoc]
    exact .snoc ih hlast

/-- What every operation keeps, a legal history keeps. -/
theorem Legal.invariant {I : List (Event O R) → A → Prop} {h : List (Event O R)}
    (hlegal : Legal spec a h a₁) (hinit : I [] a)
    (hstep : ∀ h e a₁ a₂, I h a₁ → spec a₁ e.op e.res a₂ → I (h ++ [e]) a₂) :
    I h a₁ := by
  induction hlegal with
  | nil => exact hinit
  | snoc _ hlast ih => exact hstep _ _ _ _ ih hlast

/-- An object that allows more calls allows more histories. -/
theorem Legal.mono {spec' : A → O → R → A → Prop} {h : List (Event O R)}
    (hlegal : Legal spec a h a₁)
    (hspec : ∀ a op res a', spec a op res a' → spec' a op res a') : Legal spec' a h a₁ := by
  induction hlegal with
  | nil => exact .nil
  | snoc _ hlast ih => exact .snoc ih (hspec _ _ _ _ hlast)

/-- A history of calls that have a property is legal for the object that
allows these calls only. -/
theorem Legal.restrict {Q : O → Prop} {h : List (Event O R)} (hlegal : Legal spec a h a₁)
    (hcalls : ∀ e ∈ h, Q e.op) :
    Legal (fun a op res a' => Q op ∧ spec a op res a') a h a₁ := by
  induction hlegal with
  | nil => exact .nil
  | snoc _ hlast ih =>
    have hbefore := ih fun e he => hcalls e (List.mem_append_left _ he)
    exact .snoc hbefore ⟨hcalls _ (by simp), hlast⟩

/-- An object that allows each call under another name allows the history of
the renamed calls. -/
theorem Legal.rename {O' : Type*} {spec' : A → O' → R → A → Prop} (f : O → O')
    {h : List (Event O R)} (hlegal : Legal spec a h a₁)
    (hspec : ∀ a op res a', spec a op res a' → spec' a (f op) res a') :
    Legal spec' a (h.map (Event.rename f)) a₁ := by
  induction hlegal with
  | nil => exact .nil
  | snoc _ hlast ih =>
    rw [List.map_append, List.map_singleton]
    exact .snoc ih (hspec _ _ _ _ hlast)

variable {exec : Exec C W L} {guard : Guard W L} {abs : W → A}
  {P : ℕ → List (O × R) → L → Prop}

/-- What one section of a task may do: it does no operation and leaves the
object as it is, or it does one; `P` relates a task to its calls so far. -/
def Commits (exec : Exec C W L) (guard : Guard W L) (spec : A → O → R → A → Prop)
    (abs : W → A) (P : ℕ → List (O × R) → L → Prop) : Prop :=
  ∀ i calls choice w others t w' t', guard w others t → exec choice w t = some (w', t') →
    P i calls t →
    (abs w' = abs w ∧ P i calls t') ∨
      ∃ op res, spec (abs w) op res (abs w') ∧ P i (calls ++ [(op, res)]) t'

/-- The tasks of a pool have done the calls of a history. -/
def Performed (P : ℕ → List (O × R) → L → Prop) (h : List (Event O R))
    (tasks : List L) : Prop :=
  ∀ i t, tasks[i]? = some t → P i (callsOf i h) t

/-- A step of the pool performs at most one event. -/
theorem Performed.step {c c' : Pool W L} {t : L} {h : List (Event O R)}
    (hcommits : Commits exec guard spec abs P) (hstep : Step exec guard c t c')
    (hperformed : Performed P h c.tasks) :
    ∃ e, Legal spec (abs c.shared) e (abs c'.shared) ∧
      (∀ x ∈ e, x.place < c.tasks.length) ∧
      Performed P (h ++ e) c'.tasks := by
  cases hstep with
  | move pre post choice hguard hexec =>
    rename_i w w' t'
    have hown : (pre ++ t :: post)[pre.length]? = some t := by
      rw [List.getElem?_append_right (Nat.le_refl _), Nat.sub_self, List.getElem?_cons_zero]
    rcases hcommits _ _ _ _ _ _ _ _ hguard hexec (hperformed _ _ hown) with ⟨habs, hP⟩
      | ⟨op, res, hspec, hP⟩
    · refine ⟨[], ?_, by simp, ?_⟩
      · change Legal spec (abs w) [] (abs w')
        rw [habs]
        exact .nil
      · intro i u hu
        rw [List.append_nil]
        rcases getElem?_replaced (t := t) t' hu with ⟨rfl, rfl⟩ | ⟨-, hu⟩
        · exact hP
        · exact hperformed i u hu
    · refine ⟨[⟨pre.length, op, res⟩], Legal.snoc .nil hspec, by simp, ?_⟩
      intro i u hu
      rw [callsOf_append, callsOf_singleton]
      rcases getElem?_replaced (t := t) t' hu with ⟨rfl, rfl⟩ | ⟨hne, hu⟩
      · rw [if_pos rfl]
        exact hP
      · rw [if_neg (Ne.symm hne), List.append_nil]
        exact hperformed i u hu

/-- A step leaves the number of tasks as it is. -/
theorem length_tasks_of_step {c c' : Pool W L} {t : L} (h : Step exec guard c t c') :
    c'.tasks.length = c.tasks.length := by
  cases h with
  | move pre post choice hguard hexec => simp

/-- The rule of linearization: when every section does at most one operation,
what a run does to the object is a legal history of the calls of its tasks,
which continues the history before the run. -/
theorem Performed.run {c c₁ : Pool W L} {trace : List L} {h : List (Event O R)}
    (hcommits : Commits exec guard spec abs P) (hrun : Run exec guard c trace c₁)
    (hperformed : Performed P h c.tasks) :
    ∃ h', Legal spec (abs c.shared) h' (abs c₁.shared) ∧
      (∀ e ∈ h', e.place < c.tasks.length) ∧
      c₁.tasks.length = c.tasks.length ∧ Performed P (h ++ h') c₁.tasks := by
  refine hrun.invariant
    (I := fun _ c₁ => ∃ h', Legal spec (abs c.shared) h' (abs c₁.shared) ∧
      (∀ e ∈ h', e.place < c.tasks.length) ∧
      c₁.tasks.length = c.tasks.length ∧ Performed P (h ++ h') c₁.tasks)
    ⟨[], .nil, by simp, rfl, by rwa [List.append_nil]⟩ ?_
  rintro _ c₁ t c₂ ⟨h', hlegal, hplaces, hlength, hbefore⟩ hstep
  obtain ⟨e, hlast, hplace, hafter⟩ := hbefore.step hcommits hstep
  refine ⟨h' ++ e, hlegal.append hlast, ?_, (length_tasks_of_step hstep).trans hlength,
    by rwa [← List.append_assoc]⟩
  intro x hx
  rcases List.mem_append.mp hx with hx | hx
  · exact hplaces x hx
  · rw [← hlength]
    exact hplace x hx

/-- What can always be extended has one growing history. -/
theorem exists_growing {α : Type*} {Q : ℕ → List α → Prop} (hinit : Q 0 [])
    (hstep : ∀ n h, Q n h → ∃ e, Q (n + 1) (h ++ e)) :
    ∃ h : ℕ → List α, (∀ m n, m ≤ n → h m <+: h n) ∧ ∀ n, Q n (h n) := by
  let next (n : ℕ) (h : {h : List α // Q n h}) : {h : List α // Q (n + 1) h} :=
    ⟨h.1 ++ (hstep n h.1 h.2).choose, (hstep n h.1 h.2).choose_spec⟩
  let history : ∀ n, {h : List α // Q n h} := fun n => Nat.rec ⟨[], hinit⟩ next n
  refine ⟨fun n => (history n).1, fun m n hmn => ?_, fun n => (history n).2⟩
  induction n, hmn using Nat.le_induction with
  | base => exact List.prefix_rfl
  | succ n _ ih => exact ih.trans (List.prefix_append _ _)

/-- The rule of linearization for behaviours: there is one history that grows
with the behaviour, such that at every time the part that there is until then is
legal and has the calls that the tasks have done. What is done at some time
stands in it before all that is done later. -/
theorem Performed.behaviour {σ : ℕ → Pool W L} (hcommits : Commits exec guard spec abs P)
    (hσ : Behaviour exec guard σ) (hperformed : Performed P [] (σ 0).tasks) :
    ∃ h : ℕ → List (Event O R), (∀ m n, m ≤ n → h m <+: h n) ∧ ∀ n,
      Legal spec (abs (σ 0).shared) (h n) (abs (σ n).shared) ∧
        (∀ e ∈ h n, e.place < (σ 0).tasks.length) ∧
        (σ n).tasks.length = (σ 0).tasks.length ∧ Performed P (h n) (σ n).tasks := by
  refine exists_growing (Q := fun n h => Legal spec (abs (σ 0).shared) h (abs (σ n).shared) ∧
    (∀ e ∈ h, e.place < (σ 0).tasks.length) ∧ (σ n).tasks.length = (σ 0).tasks.length ∧
    Performed P h (σ n).tasks) ⟨.nil, by simp, rfl, hperformed⟩ ?_
  rintro n h ⟨hlegal, hplaces, hlength, hbefore⟩
  rcases hσ n with heq | ⟨t, hstep⟩
  · exact ⟨[], by rw [heq, List.append_nil]; exact ⟨hlegal, hplaces, hlength, hbefore⟩⟩
  · obtain ⟨e, hlast, hplace, hafter⟩ := hbefore.step hcommits hstep
    refine ⟨e, hlegal.append hlast, ?_, (length_tasks_of_step hstep).trans hlength, hafter⟩
    intro x hx
    rcases List.mem_append.mp hx with hx | hx
    · exact hplaces x hx
    · rw [← hlength]
      exact hplace x hx

end PeachDB.Linearization
