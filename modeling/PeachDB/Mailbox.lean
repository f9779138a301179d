import Mathlib.Logic.Function.Basic
import Mathlib.Logic.Relation
import PeachDB.Interleaving

/-!
# Mailboxes

Tasks share a memory and call actors. An actor owns one object and serves the
commands in its inbox one by one, in the order in which they were sent; the
inbox is bounded. A task that has sent a command waits for the reply. Such a
system refines the one in which a call is a single section: the section is
executed when the actor serves the command. Every command is served once, and
no task waits forever on an actor that has nothing to serve.
-/

namespace PeachDB.Mailbox

open Interleaving

variable {M S I Q R L C V : Type*} [DecidableEq I]

/-- The code of a task between its calls. -/
structure Program (M I Q R L C : Type*) where
  /-- A section on the memory. -/
  compute : Exec C M L
  /-- The actor that is called next, and the command for it. -/
  command : L → Option (I × Q)
  /-- How the task goes on with a reply. -/
  resume : L → R → L

/-- A task, and where its call is. -/
inductive Status (I R L : Type*)
  /-- It computes, or is about to send. -/
  | running (l : L)
  /-- A command has been sent to an actor. -/
  | waiting (actor : I) (l : L)
  /-- The reply has been sent back. -/
  | replied (l : L) (reply : R)
  deriving DecidableEq

/-- A command with the place of the task that waits for the reply. -/
abbrev Posted (Q : Type*) := ℕ × Q

/-- The memory, the objects of the actors, their inboxes and the tasks. -/
structure System (M S I Q R L : Type*) where
  /-- What the tasks share. -/
  memory : M
  /-- What each actor owns. -/
  objects : I → S
  /-- The commands that an actor has still to serve, in order. -/
  inbox : I → List (Posted Q)
  /-- The tasks that call the actors. -/
  tasks : List (Status I R L)

/-- One step of a task or of an actor. -/
inductive Step (p : Program M I Q R L C) (serve : V → Q → S → R × S) (capacity : ℕ) :
    System M S I Q R L → System M S I Q R L → Prop
  /-- A task computes on the shared memory. -/
  | compute {s : System M S I Q R L} {i : ℕ} {l l' : L} {m : M} (choice : C)
      (htask : s.tasks[i]? = some (.running l)) (hcommand : p.command l = none)
      (hexec : p.compute choice s.memory l = some (m, l')) :
      Step p serve capacity s { s with memory := m, tasks := s.tasks.set i (.running l') }
  /-- A task sends a command, when there is room in the inbox, and waits. -/
  | send {s : System M S I Q R L} {i : ℕ} {l : L} {a : I} {q : Q}
      (htask : s.tasks[i]? = some (.running l)) (hcommand : p.command l = some (a, q))
      (hroom : (s.inbox a).length < capacity) :
      Step p serve capacity s
        { s with
          inbox := Function.update s.inbox a (s.inbox a ++ [(i, q)])
          tasks := s.tasks.set i (.waiting a l) }
  /-- An actor serves its oldest command and sends the reply. -/
  | serve {s : System M S I Q R L} {i : ℕ} {l : L} {a : I} {q : Q} {rest : List (Posted Q)}
      (verdict : V) (hinbox : s.inbox a = (i, q) :: rest)
      (htask : s.tasks[i]? = some (.waiting a l)) :
      Step p serve capacity s
        { s with
          objects := Function.update s.objects a (serve verdict q (s.objects a)).2
          inbox := Function.update s.inbox a rest
          tasks := s.tasks.set i (.replied l (serve verdict q (s.objects a)).1) }
  /-- A task goes on with its reply. -/
  | receive {s : System M S I Q R L} {i : ℕ} {l : L} {r : R}
      (htask : s.tasks[i]? = some (.replied l r)) :
      Step p serve capacity s { s with tasks := s.tasks.set i (.running (p.resume l r)) }

/-- A finite run of tasks and actors. -/
abbrev Run (p : Program M I Q R L C) (serve : V → Q → S → R × S) (capacity : ℕ) :
    System M S I Q R L → System M S I Q R L → Prop :=
  Relation.ReflTransGen (Step p serve capacity)

/-- What moves next: a task at a place, or an actor. -/
inductive Move (I C V : Type*)
  | compute (i : ℕ) (choice : C)
  | send (i : ℕ)
  | serve (a : I) (verdict : V)
  | receive (i : ℕ)

/-- Execute a step. -/
def perform (p : Program M I Q R L C) (serve : V → Q → S → R × S) (capacity : ℕ)
    (s : System M S I Q R L) : Move I C V → Option (System M S I Q R L)
  | .compute i choice =>
    match s.tasks[i]? with
    | some (.running l) =>
      if (p.command l).isSome then none
      else (p.compute choice s.memory l).map fun out =>
        { s with memory := out.1, tasks := s.tasks.set i (.running out.2) }
    | _ => none
  | .send i =>
    match s.tasks[i]? with
    | some (.running l) =>
      match p.command l with
      | some (a, q) =>
        if (s.inbox a).length < capacity then
          some { s with
            inbox := Function.update s.inbox a (s.inbox a ++ [(i, q)])
            tasks := s.tasks.set i (.waiting a l) }
        else none
      | none => none
    | _ => none
  | .serve a verdict =>
    match s.inbox a with
    | (i, q) :: rest =>
      match s.tasks[i]? with
      | some (.waiting b l) =>
        if b = a then
          some { s with
            objects := Function.update s.objects a (serve verdict q (s.objects a)).2
            inbox := Function.update s.inbox a rest
            tasks := s.tasks.set i (.replied l (serve verdict q (s.objects a)).1) }
        else none
      | _ => none
    | [] => none
  | .receive i =>
    match s.tasks[i]? with
    | some (.replied l r) => some { s with tasks := s.tasks.set i (.running (p.resume l r)) }
    | _ => none

/-- Execute steps one after another. -/
def performAll (p : Program M I Q R L C) (serve : V → Q → S → R × S) (capacity : ℕ) :
    System M S I Q R L → List (Move I C V) → Option (System M S I Q R L)
  | s, [] => some s
  | s, move :: moves => (perform p serve capacity s move).bind fun s =>
    performAll p serve capacity s moves

section

variable {p : Program M I Q R L C} {serve : V → Q → S → R × S} {capacity : ℕ}
  {s s' : System M S I Q R L}

/-- A move that is performed is a step. -/
theorem step_of_perform {move : Move I C V} (h : perform p serve capacity s move = some s') :
    Step p serve capacity s s' := by
  cases move with
  | compute i choice =>
    simp only [perform] at h
    split at h
    · next l htask =>
      split at h
      · cases h
      · next hnone =>
        obtain ⟨⟨m, l'⟩, hexec, rfl⟩ := Option.map_eq_some_iff.mp h
        exact .compute choice htask (by simpa using hnone) hexec
    · cases h
  | send i =>
    simp only [perform] at h
    split at h
    · next l htask =>
      split at h
      · next a q hcommand =>
        split at h
        · next hroom =>
          cases h
          exact .send htask hcommand hroom
        · cases h
      · cases h
    · cases h
  | serve a verdict =>
    simp only [perform] at h
    split at h
    · next i q rest hinbox =>
      split at h
      · next b l htask =>
        split at h
        · next hb =>
          cases h
          subst hb
          exact .serve verdict hinbox htask
        · cases h
      · cases h
    · cases h
  | receive i =>
    simp only [perform] at h
    split at h
    · next htask =>
      cases h
      exact .receive htask
    · cases h

/-- Steps that execute are a run. -/
theorem run_of_performAll {moves : List (Move I C V)}
    (h : performAll p serve capacity s moves = some s') :
    Run p serve capacity s s' := by
  induction moves generalizing s with
  | nil =>
    cases h
    exact .refl
  | cons move moves ih =>
    obtain ⟨s₁, hstep, hrest⟩ := Option.bind_eq_some_iff.mp h
    exact (ih hrest).head (step_of_perform hstep)

/-- The run of steps that are known to execute. -/
theorem run_get_performAll {moves : List (Move I C V)}
    (h : (performAll p serve capacity s moves).isSome) :
    Run p serve capacity s ((performAll p serve capacity s moves).get h) :=
  run_of_performAll (Option.some_get h).symm

end

/-- Tasks that call actors in a single section. -/
def atomically (p : Program M I Q R L C) (serve : V → Q → S → R × S) :
    Exec (C ⊕ V) (M × (I → S)) L :=
  fun choice w l =>
    match p.command l, choice with
    | some (a, q), .inr verdict =>
      let out := serve verdict q (w.2 a)
      some ((w.1, Function.update w.2 a out.2), p.resume l out.1)
    | none, .inl choice => (p.compute choice w.1 l).map fun out => ((out.1, w.2), out.2)
    | _, _ => none

/-- A call counts as done when the actor has served it. -/
def Status.settled (p : Program M I Q R L C) : Status I R L → L
  | .running l => l
  | .waiting _ l => l
  | .replied l r => p.resume l r

/-- The system without its inboxes. -/
def System.pool (p : Program M I Q R L C) (s : System M S I Q R L) : Pool (M × (I → S)) L :=
  ⟨(s.memory, s.objects), s.tasks.map (Status.settled p)⟩

/-- The inboxes hold exactly the commands that tasks wait for, each once. -/
structure Orderly (p : Program M I Q R L C) (s : System M S I Q R L) : Prop where
  /-- A command in an inbox is one that its task waits for. -/
  posted : ∀ a i q, (i, q) ∈ s.inbox a → ∃ l, s.tasks[i]? = some (.waiting a l) ∧
    p.command l = some (a, q)
  /-- No task has two commands in an inbox. -/
  once : ∀ a, ((s.inbox a).map Prod.fst).Nodup
  /-- A task that waits has its command in the inbox. -/
  waiting : ∀ i a l, s.tasks[i]? = some (.waiting a l) → ∃ q, (i, q) ∈ s.inbox a

/-- A system whose tasks have not begun. -/
def System.start (memory : M) (objects : I → S) (tasks : List L) : System M S I Q R L :=
  ⟨memory, objects, fun _ => [], tasks.map .running⟩

section

variable {p : Program M I Q R L C} {serve : V → Q → S → R × S} {capacity : ℕ}
  {s s' : System M S I Q R L}

omit [DecidableEq I] in
/-- At first nothing is under way. -/
theorem orderly_start (memory : M) (objects : I → S) (tasks : List L) :
    Orderly p (System.start memory objects tasks) where
  posted := by
    intro a i q h
    cases h
  once := fun a => List.nodup_nil
  waiting := by
    intro i a l h
    rw [System.start, List.getElem?_map] at h
    obtain ⟨l', -, heq⟩ := Option.map_eq_some_iff.mp h
    cases heq

omit [DecidableEq I] in
/-- The pool of the system at first. -/
theorem pool_start (memory : M) (objects : I → S) (tasks : List L) :
    (System.start memory objects tasks : System M S I Q R L).pool p =
      ⟨(memory, objects), tasks⟩ := by
  rw [System.pool, System.start, List.map_map]
  exact congrArg _ (List.map_id tasks)

omit [DecidableEq I] in
/-- A task that does not wait, and will not, goes on. -/
theorem Orderly.set {m : M} {i : ℕ} {t t' : Status I R L} (h : Orderly p s)
    (htask : s.tasks[i]? = some t) (hbefore : ∀ a l, t ≠ .waiting a l)
    (hafter : ∀ a l, t' ≠ .waiting a l) :
    Orderly p { s with memory := m, tasks := s.tasks.set i t' } where
  posted := by
    intro a j q hq
    obtain ⟨l, hl, hcommand⟩ := h.posted a j q hq
    have hne : i ≠ j := by
      rintro rfl
      rw [htask] at hl
      exact hbefore a l (Option.some.inj hl)
    exact ⟨l, by rw [List.getElem?_set_ne hne]; exact hl, hcommand⟩
  once := h.once
  waiting := by
    intro j a l hj
    dsimp only at hj
    by_cases hij : i = j
    · subst hij
      obtain ⟨hi, -⟩ := List.getElem?_eq_some_iff.mp htask
      rw [List.getElem?_set_self hi] at hj
      exact absurd (Option.some.inj hj) (hafter a l)
    · rw [List.getElem?_set_ne hij] at hj
      exact h.waiting j a l hj

omit [DecidableEq I] in
/-- Nobody has posted a command for a task that does not wait. -/
theorem Orderly.not_posted {i : ℕ} {t : Status I R L} (h : Orderly p s)
    (htask : s.tasks[i]? = some t) (hbefore : ∀ a l, t ≠ .waiting a l) (a : I) (q : Q) :
    (i, q) ∉ s.inbox a := by
  intro hq
  obtain ⟨l, hl, -⟩ := h.posted a i q hq
  rw [htask] at hl
  exact hbefore a l (Option.some.inj hl)

/-- The inboxes when a command has been posted. -/
theorem mem_update_concat {inbox : I → List (Posted Q)} {a b : I} {x y : Posted Q} :
    y ∈ Function.update inbox a (inbox a ++ [x]) b ↔ y ∈ inbox b ∨ b = a ∧ y = x := by
  rw [Function.update_apply]
  split
  · next hb =>
    subst hb
    simp
  · next hb => simp [hb]

/-- The inboxes when the oldest command of one has been served. -/
theorem mem_of_mem_update_tail {inbox : I → List (Posted Q)} {a b : I} {x y : Posted Q}
    {rest : List (Posted Q)} (hinbox : inbox a = x :: rest)
    (hy : y ∈ Function.update inbox a rest b) : y ∈ inbox b := by
  rw [Function.update_apply] at hy
  split at hy
  · next hb =>
    rw [hb, hinbox]
    exact List.mem_cons_of_mem _ hy
  · exact hy

/-- Other commands stay when the oldest one of an inbox has been served. -/
theorem mem_update_tail {inbox : I → List (Posted Q)} {a b : I} {x y : Posted Q}
    {rest : List (Posted Q)} (hinbox : inbox a = x :: rest) (hy : y ∈ inbox b) (hne : y ≠ x) :
    y ∈ Function.update inbox a rest b := by
  rw [Function.update_apply]
  split
  · next hb =>
    rw [hb, hinbox, List.mem_cons] at hy
    exact hy.resolve_left hne
  · exact hy

/-- A command that is sent stands in one inbox. -/
theorem Orderly.posting {i : ℕ} {l : L} {a : I} {q : Q} (h : Orderly p s)
    (htask : s.tasks[i]? = some (.running l)) (hcommand : p.command l = some (a, q)) :
    Orderly p { s with
      inbox := Function.update s.inbox a (s.inbox a ++ [(i, q)])
      tasks := s.tasks.set i (.waiting a l) } where
  posted := by
    intro b j q' hq'
    obtain ⟨hi, -⟩ := List.getElem?_eq_some_iff.mp htask
    dsimp only at hq' ⊢
    rcases mem_update_concat.mp hq' with hold | ⟨rfl, heq⟩
    · have hij : i ≠ j := by
        rintro rfl
        exact h.not_posted htask (by simp) b q' hold
      rw [List.getElem?_set_ne hij]
      exact h.posted b j q' hold
    · cases heq
      exact ⟨l, List.getElem?_set_self hi, hcommand⟩
  once := by
    intro b
    dsimp only
    rw [Function.update_apply]
    split
    · rw [List.map_append, List.map_singleton, List.nodup_append]
      refine ⟨h.once a, by simp, ?_⟩
      intro j hj k hk
      obtain ⟨x, hx, rfl⟩ := List.mem_map.mp hj
      rw [List.mem_singleton.mp hk]
      rintro rfl
      exact h.not_posted htask (by simp) a x.2 hx
    · exact h.once b
  waiting := by
    intro j b l' hj
    obtain ⟨hi, -⟩ := List.getElem?_eq_some_iff.mp htask
    dsimp only at hj ⊢
    by_cases hij : i = j
    · subst hij
      rw [List.getElem?_set_self hi] at hj
      cases hj
      exact ⟨q, mem_update_concat.mpr (.inr ⟨rfl, rfl⟩)⟩
    · rw [List.getElem?_set_ne hij] at hj
      obtain ⟨q', hq'⟩ := h.waiting j b l' hj
      exact ⟨q', mem_update_concat.mpr (.inl hq')⟩

/-- A command that is served leaves its inbox. -/
theorem Orderly.serving {i : ℕ} {l : L} {a : I} {q : Q} {rest : List (Posted Q)}
    {objects : I → S} {r : R} (h : Orderly p s) (hinbox : s.inbox a = (i, q) :: rest)
    (htask : s.tasks[i]? = some (.waiting a l)) :
    Orderly p { s with
      objects := objects
      inbox := Function.update s.inbox a rest
      tasks := s.tasks.set i (.replied l r) } where
  posted := by
    intro b j q' hq'
    have honce := h.once a
    rw [hinbox, List.map_cons, List.nodup_cons] at honce
    dsimp only at hq' ⊢
    obtain ⟨l', hl', hcommand⟩ := h.posted b j q' (mem_of_mem_update_tail hinbox hq')
    have hij : i ≠ j := by
      rintro rfl
      rw [htask] at hl'
      cases hl'
      rw [Function.update_self] at hq'
      exact honce.1 (List.mem_map.mpr ⟨(i, q'), hq', rfl⟩)
    exact ⟨l', by rw [List.getElem?_set_ne hij]; exact hl', hcommand⟩
  once := by
    intro b
    dsimp only
    rw [Function.update_apply]
    split
    · have honce := h.once a
      rw [hinbox, List.map_cons, List.nodup_cons] at honce
      exact honce.2
    · exact h.once b
  waiting := by
    intro j b l' hj
    obtain ⟨hi, -⟩ := List.getElem?_eq_some_iff.mp htask
    dsimp only at hj ⊢
    by_cases hij : i = j
    · subst hij
      rw [List.getElem?_set_self hi] at hj
      cases hj
    · rw [List.getElem?_set_ne hij] at hj
      obtain ⟨q', hq'⟩ := h.waiting j b l' hj
      exact ⟨q', mem_update_tail hinbox hq' fun heq => hij (Prod.mk.inj heq).1.symm⟩

/-- Every step keeps the commands in order. -/
theorem Orderly.step (h : Orderly p s) (hstep : Step p serve capacity s s') : Orderly p s' := by
  cases hstep with
  | compute choice htask hcommand hexec => exact h.set htask (by simp) (by simp)
  | send htask hcommand hroom => exact h.posting htask hcommand
  | serve verdict hinbox htask => exact h.serving hinbox htask
  | receive htask => exact h.set (m := s.memory) htask (by simp) (by simp)

/-- Every run keeps the commands in order. -/
theorem Orderly.run (h : Orderly p s) (hrun : Run p serve capacity s s') : Orderly p s' := by
  induction hrun with
  | refl => exact h
  | tail _ hstep ih => exact ih.step hstep

omit [DecidableEq I] in
/-- A task of the system is one of the pool. -/
theorem pool_task {i : ℕ} {t : Status I R L} (htask : s.tasks[i]? = some t) :
    (s.pool p).tasks[i]? = some (t.settled p) := by
  rw [System.pool, List.getElem?_map, htask]
  rfl

omit [DecidableEq I] in
/-- A task whose call is not served yet, or has been, is the same task. -/
theorem pool_set {i : ℕ} {t t' : Status I R L} (htask : s.tasks[i]? = some t)
    (hsettled : t'.settled p = t.settled p) :
    (s.tasks.set i t').map (Status.settled p) = (s.pool p).tasks := by
  rw [List.map_set, hsettled, System.pool]
  obtain ⟨hi, hti⟩ := List.getElem?_eq_some_iff.mp htask
  have hlen : i < (s.tasks.map (Status.settled p)).length := by rwa [List.length_map]
  have hself : t.settled p = (s.tasks.map (Status.settled p))[i] := by rw [List.getElem_map, hti]
  rw [hself, List.set_getElem_self]

/-- How far a task is from its next section: a reply is to be received, and a
command to be sent. -/
def Status.lag : Status I R L → ℕ
  | .running _ => 1
  | .waiting _ _ => 0
  | .replied _ _ => 2

/-- The steps of the tasks up to their next sections. -/
def System.lag (s : System M S I Q R L) : ℕ := (s.tasks.map Status.lag).sum

/-- A sum falls with one of its terms. -/
theorem sum_map_set_lt {α : Type*} (f : α → ℕ) {l : List α} {i : ℕ} {x y : α}
    (hx : l[i]? = some x) (hlt : f y < f x) : ((l.set i y).map f).sum < (l.map f).sum := by
  induction l generalizing i with
  | nil => cases hx
  | cons z l ih =>
    cases i with
    | zero =>
      cases hx
      simpa using hlt
    | succ i =>
      have htail := ih hx
      simpa using htail

/-- A step of the system is a section of one task, which is a whole call when
an actor serves it, or nothing that the tasks can tell. -/
theorem Orderly.simulates (h : Orderly p s) (hstep : Step p serve capacity s s') :
    (s'.pool p = s.pool p ∧ s'.lag < s.lag) ∨
      ∃ t, Interleaving.Step (atomically p serve) anyStep (s.pool p) t (s'.pool p) := by
  cases hstep with
  | @compute i l l' m choice htask hcommand hexec =>
    have hsection : atomically p serve (.inl choice) (s.pool p).shared l = some ((m, s.objects),
        l') := by
      simp only [atomically, hcommand, System.pool, hexec, Option.map_some]
    have hmove : Interleaving.Step _ anyStep _ _ _ := .of_place (pool_task htask) trivial hsection
    refine .inr ⟨l, ?_⟩
    rw [System.pool, System.pool, List.map_set]
    exact hmove
  | send htask hcommand hroom =>
    refine .inl ⟨?_, sum_map_set_lt Status.lag htask (by simp [Status.lag])⟩
    rw [System.pool]
    exact congrArg _ (pool_set htask rfl)
  | @serve i l a q rest verdict hinbox htask =>
    obtain ⟨l', hl', hcommand⟩ := h.posted a i q (by rw [hinbox]; exact List.mem_cons_self)
    rw [htask] at hl'
    cases hl'
    have hsection : atomically p serve (.inr verdict) (s.pool p).shared l =
        some ((s.memory, Function.update s.objects a (serve verdict q (s.objects a)).2),
          p.resume l (serve verdict q (s.objects a)).1) := by
      simp only [atomically, hcommand, System.pool]
    have hmove : Interleaving.Step _ anyStep _ _ _ := .of_place (pool_task htask) trivial hsection
    refine .inr ⟨l, ?_⟩
    rw [System.pool, System.pool, List.map_set]
    exact hmove
  | receive htask =>
    refine .inl ⟨?_, sum_map_set_lt Status.lag htask (by simp [Status.lag])⟩
    rw [System.pool]
    exact congrArg _ (pool_set htask rfl)

/-- A run of the system is a run of the tasks with their calls as single
sections. -/
theorem Orderly.refines (h : Orderly p s) (hrun : Run p serve capacity s s') :
    ∃ trace, Interleaving.Run (atomically p serve) anyStep (s.pool p) trace (s'.pool p) := by
  induction hrun with
  | refl => exact ⟨[], .refl⟩
  | tail hbefore hstep ih =>
    obtain ⟨trace, hrun⟩ := ih
    rcases (h.run hbefore).simulates hstep with ⟨heq, -⟩ | ⟨t, hmove⟩
    · exact ⟨trace, by rw [heq]; exact hrun⟩
    · exact ⟨trace ++ [t], hrun.snoc hmove⟩

/-- Whether a task can go on without the memory. -/
def Status.Calling (p : Program M I Q R L C) : Status I R L → Prop
  | .running l => (p.command l).isSome
  | .waiting _ _ => True
  | .replied _ _ => True

/-- As long as some task is in a call, something can move. -/
theorem Orderly.progress [Nonempty V] (h : Orderly p s) (hcapacity : 0 < capacity) {i : ℕ}
    {t : Status I R L} (htask : s.tasks[i]? = some t) (hcalling : t.Calling p) :
    ∃ s', Step p serve capacity s s' := by
  obtain ⟨verdict⟩ := ‹Nonempty V›
  -- an actor with a command can serve it
  have hserve : ∀ a, s.inbox a ≠ [] → ∃ s', Step p serve capacity s s' := by
    intro a hne
    cases hinbox : s.inbox a with
    | nil => exact absurd hinbox hne
    | cons x rest =>
      obtain ⟨j, q⟩ := x
      obtain ⟨l, hl, -⟩ := h.posted a j q (by rw [hinbox]; exact List.mem_cons_self)
      exact ⟨_, .serve verdict hinbox hl⟩
  cases t with
  | running l =>
    obtain ⟨⟨a, q⟩, hcommand⟩ := Option.isSome_iff_exists.mp hcalling
    by_cases hroom : (s.inbox a).length < capacity
    · exact ⟨_, .send htask hcommand hroom⟩
    · refine hserve a fun hnil => hroom ?_
      rw [hnil]
      exact hcapacity
  | waiting a l =>
    obtain ⟨q, hq⟩ := h.waiting i a l htask
    exact hserve a (List.ne_nil_of_mem hq)
  | replied l r => exact ⟨_, .receive htask⟩

/-- When every section makes its task smaller, the system comes to an end. -/
theorem Orderly.terminates {r : L → L → Prop} (hr : WellFounded r)
    (hsection : ∀ choice w l w' l', atomically p serve choice w l = some (w', l') → r l' l)
    (h : Orderly p s) (σ : ℕ → System M S I Q R L) (hstart : σ 0 = s) :
    ∃ n, ¬ Step p serve capacity (σ n) (σ (n + 1)) := by
  by_contra hforever
  have hsteps : ∀ n, Step p serve capacity (σ n) (σ (n + 1)) := fun n =>
    Classical.not_not.mp (not_exists.mp hforever n)
  have horderly : ∀ n, Orderly p (σ n) := by
    intro n
    induction n with
    | zero => exact hstart ▸ h
    | succ n ih => exact ih.step (hsteps n)
  -- a section takes the tasks down, and between sections the lag goes down
  have hpools : WellFounded fun c' c =>
      ∃ l, Interleaving.Step (atomically p serve) anyStep c l c' :=
    wellFounded_step hr hsection
  have hdown := hpools.prod_lex Nat.lt_wfRel.wf
  refine (wellFounded_iff_isEmpty_descending_chain.mp hdown).false
    ⟨fun n => ((σ n).pool p, (σ n).lag), fun n => ?_⟩
  rcases (horderly n).simulates (hsteps n) with ⟨heq, hlag⟩ | hmove
  · exact Prod.lex_def.mpr (.inr ⟨heq, hlag⟩)
  · exact Prod.lex_def.mpr (.inl hmove)

end

end PeachDB.Mailbox
