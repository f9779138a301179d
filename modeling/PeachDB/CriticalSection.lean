import PeachDB.Interleaving

/-!
# Critical sections

Tasks share a state of which one part is guarded by a lock. A task that holds
the lock works on the guarded part in several sections, and nobody else touches
that part before the lock is released. Such tasks refine tasks that do all of
it in a single section: the section is executed when the lock is released, and
until then the guarded part still counts as it was when the lock was taken.
-/

namespace PeachDB.CriticalSection

open Interleaving

variable {W L C U G W' T C' : Type*}

/-- How tasks with a lock stand for tasks with larger sections. The state is
split into an outer part and the guarded one. `Inside g t l g'` says that a
task took the lock at `g`, to execute the section of `t`, and has come to `l`
and to `g'`. -/
structure Discipline (exec : Exec C W L) (exec' : Exec C' W' T) (U G : Type*) where
  /-- What is seen without the lock. -/
  outer : W → U
  /-- What the lock guards. -/
  inner : W → G
  /-- The lock is taken. -/
  held : W → Bool
  /-- The state of the tasks with larger sections. -/
  join : U → G → W'
  /-- A task outside of the section, and its atomic counterpart. -/
  Outside : L → T → Prop
  /-- A task inside of the section: what it has found there, the atomic task at
  its start, and what it has made of it. -/
  Inside : G → T → L → G → Prop
  /-- Without the lock: an outer section, or the lock is taken, or a section on
  the guarded part that needs the lock for itself only. -/
  outside : ∀ {choice : C} {w w' : W} {l l' : L} {t : T}, exec choice w l = some (w', l') →
    Outside l t →
    (held w' = held w ∧ inner w' = inner w ∧ ((outer w' = outer w ∧ Outside l' t) ∨
      ∀ g, ∃ choice' t', exec' choice' (join (outer w) g) t = some (join (outer w') g, t') ∧
      Outside l' t')) ∨
    (held w = false ∧ held w' = true ∧ outer w' = outer w ∧
      Inside (inner w) t l' (inner w')) ∨
    (held w = false ∧ held w' = false ∧ ∃ choice' t',
      exec' choice' (join (outer w) (inner w)) t = some (join (outer w') (inner w'), t') ∧
      Outside l' t')
  /-- With the lock: the section goes on, or it ends and the lock is released. -/
  inside : ∀ {choice : C} {w w' : W} {l l' : L} {t : T} {g : G}, exec choice w l =
    some (w', l') →
    held w = true → Inside g t l (inner w) →
    outer w' = outer w ∧ ((held w' = true ∧ Inside g t l' (inner w')) ∨
      (held w' = false ∧ ∃ choice' t',
        exec' choice' (join (outer w) g) t = some (join (outer w) (inner w'), t') ∧
        Outside l' t'))

/-- A pool of tasks with a lock, its holder, the guarded part as it counts, and
the pool that it stands for. -/
structure Related {exec : Exec C W L} {exec' : Exec C' W' T} (d : Discipline exec exec' U G)
    (holder : Option ℕ) (g : G) (c : Pool W L) (c' : Pool W' T) : Prop where
  /-- The tasks correspond. -/
  length : c.tasks.length = c'.tasks.length
  /-- The atomic state has the guarded part of before the section. -/
  shared : c'.shared = d.join (d.outer c.shared) g
  /-- Tasks outside of the section correspond. -/
  outside : ∀ j l t, holder ≠ some j → c.tasks[j]? = some l → c'.tasks[j]? = some t →
    d.Outside l t
  /-- When no task holds the lock, the states agree. -/
  free : holder = none → d.held c.shared = false ∧ g = d.inner c.shared
  /-- The holder of the lock has begun one section. -/
  inside : ∀ i, holder = some i → d.held c.shared = true ∧ ∃ l t, c.tasks[i]? = some l ∧
    c'.tasks[i]? = some t ∧ d.Inside g t l (d.inner c.shared)

section

variable {exec : Exec C W L} {exec' : Exec C' W' T} {d : Discipline exec exec' U G}
  {holder holder₁ : Option ℕ} {g : G} {c c₁ : Pool W L} {c' : Pool W' T} {i : ℕ}

/-- The tasks that were outside before a step of one of them still are. -/
theorem Related.outside_set (h : Related d holder g c c') {l' : L} {t' : T}
    (hholder : ∀ j, j ≠ i → holder₁ ≠ some j → holder ≠ some j)
    (hown : holder₁ ≠ some i → d.Outside l' t') :
    ∀ j l t, holder₁ ≠ some j → (c.tasks.set i l')[j]? = some l →
      (c'.tasks.set i t')[j]? = some t →
      d.Outside l t := by
  intro j l t hj hl ht
  by_cases hij : i = j
  · subst hij
    have hi : i < c.tasks.length := by
      rw [← List.length_set (i := i) (a := l')]
      exact (List.getElem?_eq_some_iff.mp hl).1
    rw [List.getElem?_set_self hi] at hl
    rw [List.getElem?_set_self (h.length ▸ hi)] at ht
    cases hl
    cases ht
    exact hown hj
  · rw [List.getElem?_set_ne hij] at hl ht
    exact h.outside j l t (hholder j (Ne.symm hij) hj) hl ht

/-- The lock is free exactly when nobody holds it. -/
theorem Related.holder_eq_none (h : Related d holder g c c') (hfree : d.held c.shared = false) :
    holder = none := by
  cases holder with
  | none => rfl
  | some i =>
    have hheld := (h.inside i rfl).1
    rw [hfree] at hheld
    cases hheld

/-- The holder stays where it is when another task moves. -/
theorem Related.inside_set (h : Related d holder g c c') {w : W} {l' : L} {t' : T}
    (hheld : d.held w = d.held c.shared) (hinner : d.inner w = d.inner c.shared)
    (hne : holder ≠ some i) :
    ∀ j, holder = some j → d.held w = true ∧ ∃ l t, (c.tasks.set i l')[j]? = some l ∧
      (c'.tasks.set i t')[j]? = some t ∧ d.Inside g t l (d.inner w) := by
  intro j hj
  obtain ⟨hlocked, l, t, hl, ht, hinside⟩ := h.inside j hj
  have hij : i ≠ j := fun heq => hne (heq ▸ hj)
  refine ⟨hheld.trans hlocked, l, t, ?_, ?_, hinner ▸ hinside⟩
  · rwa [List.getElem?_set_ne hij]
  · rwa [List.getElem?_set_ne hij]

/-- A section of a task without the lock. -/
theorem Related.step_outside (h : Related d holder g c c') {choice : C} {w : W} {l l' : L} {t : T}
    (hl : c.tasks[i]? = some l) (ht : c'.tasks[i]? = some t)
    (hexec : exec choice c.shared l = some (w, l')) (hne : holder ≠ some i) :
    ∃ holder₁ g₁ c₁', Related d holder₁ g₁ ⟨w, c.tasks.set i l'⟩ c₁' ∧
      (c₁' = c' ∨ ∃ t, Step exec' anyStep c' t c₁') ∧
      (holder₁ ≠ none → g₁ = g) := by
  have hlength (t' : T) : (c.tasks.set i l').length = (c'.tasks.set i t').length := by
    rw [List.length_set, List.length_set, h.length]
  have hself : c'.tasks.set i t = c'.tasks := by
    obtain ⟨hi, hti⟩ := List.getElem?_eq_some_iff.mp ht
    rw [← hti, List.set_getElem_self]
  rcases d.outside hexec (h.outside i l t hne hl ht) with
    ⟨hheld, hinner, hsection⟩ | ⟨hfree, hheld, houter, hinside⟩
      | ⟨hfree, hreleased, choice', t', hexec', hout⟩
  · have hfree (hnone : holder = none) : d.held w = false ∧ g = d.inner w := by
      obtain ⟨hfree, hsame⟩ := h.free hnone
      exact ⟨hheld.trans hfree, hsame.trans hinner.symm⟩
    rcases hsection with ⟨houter, hout⟩ | hsection
    · refine ⟨holder, g, ⟨c'.shared, c'.tasks.set i t⟩, ⟨hlength t, houter ▸ h.shared,
        h.outside_set (fun j _ hj => hj) fun _ => hout, hfree, h.inside_set hheld hinner hne⟩,
          .inl ?_, fun _ => rfl⟩
      rw [hself]
    · obtain ⟨choice', t', hexec', hout⟩ := hsection g
      rw [← h.shared] at hexec'
      exact ⟨holder, g, ⟨d.join (d.outer w) g, c'.tasks.set i t'⟩, ⟨hlength t', rfl,
        h.outside_set (fun j _ hj => hj) fun _ => hout, hfree, h.inside_set hheld hinner hne⟩,
        .inr ⟨t, Step.of_place ht trivial hexec'⟩, fun _ => rfl⟩
  · have hnone := h.holder_eq_none hfree
    refine ⟨some i, g, ⟨c'.shared, c'.tasks.set i t⟩, ⟨hlength t, houter ▸ h.shared,
      h.outside_set (fun j _ _ => by rw [hnone]; simp) fun hown => absurd rfl hown, by simp, ?_⟩,
      .inl (by rw [hself]), fun _ => rfl⟩
    intro j hj
    cases hj
    refine ⟨hheld, l', t, List.getElem?_set_self (List.getElem?_eq_some_iff.mp hl).1, ?_, ?_⟩
    · rw [hself]
      exact ht
    · rwa [(h.free hnone).2]
  · have hnone := h.holder_eq_none hfree
    rw [← (h.free hnone).2, ← h.shared] at hexec'
    exact ⟨none, d.inner w, ⟨d.join (d.outer w) (d.inner w), c'.tasks.set i t'⟩, ⟨hlength t', rfl,
      h.outside_set (fun j _ _ => by rw [hnone]; simp) fun _ => hout, fun _ => ⟨hreleased, rfl⟩,
      fun j hj => by cases hj⟩, .inr ⟨t, Step.of_place ht trivial hexec'⟩,
      fun hheld => absurd rfl hheld⟩

/-- A section of the task that holds the lock. -/
theorem Related.step_inside (h : Related d (some i) g c c') {choice : C} {w : W} {l l' : L}
    (hl : c.tasks[i]? = some l) (hexec : exec choice c.shared l = some (w, l')) :
    ∃ holder₁ g₁ c₁', Related d holder₁ g₁ ⟨w, c.tasks.set i l'⟩ c₁' ∧
      (c₁' = c' ∨ ∃ t, Step exec' anyStep c' t c₁') ∧
      (holder₁ ≠ none → g₁ = g) := by
  obtain ⟨hheld, l₀, t, hl₀, ht, hinside⟩ := h.inside i rfl
  rw [hl] at hl₀
  cases hl₀
  have hi := (List.getElem?_eq_some_iff.mp hl).1
  have hlength (t' : T) : (c.tasks.set i l').length = (c'.tasks.set i t').length := by
    rw [List.length_set, List.length_set, h.length]
  have hothers : ∀ j, j ≠ i → (none : Option ℕ) ≠ some j → some i ≠ some j :=
    fun j hj _ heq => hj (Option.some.inj heq).symm
  obtain ⟨houter, ⟨hheld', hinside'⟩ | ⟨hreleased, choice', t', hexec', hout⟩⟩ :=
    d.inside hexec hheld hinside
  · have hself : c'.tasks.set i t = c'.tasks := by
      obtain ⟨hi', hti⟩ := List.getElem?_eq_some_iff.mp ht
      rw [← hti, List.set_getElem_self]
    refine ⟨some i, g, ⟨c'.shared, c'.tasks.set i t⟩, ⟨hlength t, houter ▸ h.shared,
      h.outside_set (fun j _ hj => hj) fun hown => absurd rfl hown, by simp, ?_⟩,
      .inl (by rw [hself]), fun _ => rfl⟩
    intro j hj
    cases hj
    refine ⟨hheld', l', t, List.getElem?_set_self hi, ?_, hinside'⟩
    rw [hself]
    exact ht
  · rw [← h.shared, ← houter] at hexec'
    exact ⟨none, d.inner w, ⟨d.join (d.outer w) (d.inner w), c'.tasks.set i t'⟩, ⟨hlength t', rfl,
      h.outside_set hothers fun _ => hout, fun _ => ⟨hreleased, rfl⟩, fun j hj => by
        cases hj⟩,
      .inr ⟨t, Step.of_place ht trivial hexec'⟩, fun hheld => absurd rfl hheld⟩

/-- A section of a task; while the lock is held, the guarded part counts as
before. -/
theorem Related.step (h : Related d holder g c c') {l : L} (hstep : Step exec anyStep c l c₁) :
    ∃ holder₁ g₁ c₁', Related d holder₁ g₁ c₁ c₁' ∧
      (c₁' = c' ∨ ∃ t, Step exec' anyStep c' t c₁') ∧
      (holder₁ ≠ none → g₁ = g) := by
  obtain ⟨i, choice, l', hl, hexec, htasks⟩ := hstep.exists_place
  obtain ⟨w, tasks⟩ := c₁
  dsimp only at hexec htasks
  subst htasks
  by_cases hholder : holder = some i
  · subst hholder
    exact h.step_inside hl hexec
  · have hi := (List.getElem?_eq_some_iff.mp hl).1
    have ht := List.getElem?_eq_getElem (h.length ▸ hi)
    exact h.step_outside hl ht hexec hholder

/-- A run of tasks with a lock is a run of tasks with larger sections. -/
theorem Related.refines (h : Related d holder g c c') {trace : List L}
    (hrun : Run exec anyStep c trace c₁) :
    ∃ holder₁ g₁ trace' c₁', Run exec' anyStep c' trace' c₁' ∧
      Related d holder₁ g₁ c₁ c₁' := by
  refine hrun.invariant (I := fun _ c₁ => ∃ holder₁ g₁ trace' c₁',
    Run exec' anyStep c' trace' c₁' ∧ Related d holder₁ g₁ c₁ c₁') ⟨holder, g, [], c',
    .refl, h⟩ ?_
  rintro _ c₁ l c₂ ⟨holder₁, g₁, trace', c₁', hbefore, hrelated⟩ hstep
  obtain ⟨holder₂, g₂, c₂', hrelated', heq | ⟨t, hmove⟩, -⟩ := hrelated.step hstep
  · exact ⟨holder₂, g₂, trace', c₂', by rwa [heq], hrelated'⟩
  · exact ⟨holder₂, g₂, trace' ++ [t], c₂', hbefore.snoc hmove, hrelated'⟩

end

end PeachDB.CriticalSection
