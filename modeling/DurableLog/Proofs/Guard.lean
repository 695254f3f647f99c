import DurableLog.Log.Guard

/-!
# Who can hold the guard together

Asking for the guard and giving it back only move tickets from the queue to the holders, in order.
So the holders always are readers, or one writer alone (`Compatible`), and while a writer holds the
guard nothing that other tasks do lets anybody in.
-/

namespace DurableLog.Guard

/-- The tickets of holders and waiters, in the order of asking. -/
def tickets (g : Guard) : List Ticket := g.holders ++ g.waiting

/-- The ticket of a writer. -/
def writer (task : Nat) : Ticket := ⟨task, .exclusive⟩

/-- They can hold the guard together: readers only, or one writer. -/
def Compatible (holders : List Ticket) : Prop :=
  (∀ t ∈ holders, t.access = .shared) ∨ ∃ task, holders = [writer task]

theorem compatible_nil : Compatible [] := Or.inl (by simp)

/-! ## Letting in -/

/-- Nobody is lost and nobody overtakes. -/
theorem tickets_letIn (holders waiting : List Ticket) :
    (letIn holders waiting).tickets = holders ++ waiting := by
  induction waiting generalizing holders with
  | nil => rfl
  | cons t rest ih =>
    rw [letIn]
    split
    · rw [ih, List.append_assoc, List.singleton_append]
    · rfl

theorem compatible_of_admits {holders : List Ticket} {t : Ticket}
    (h : admits holders t = true) : Compatible (holders ++ [t]) := by
  obtain ⟨task, access⟩ := t
  cases access with
  | exclusive =>
    have empty : holders = [] := by simpa [admits] using h
    exact Or.inr ⟨task, by simp [empty, writer]⟩
  | shared =>
    have shared : ∀ t ∈ holders, t.access = .shared := by simpa [admits] using h
    refine Or.inl fun t ht => ?_
    rcases List.mem_append.mp ht with ht | ht
    · exact shared t ht
    · rw [List.mem_singleton.mp ht]

theorem compatible_letIn {holders : List Ticket} (h : Compatible holders) (waiting : List Ticket) :
    Compatible (letIn holders waiting).holders := by
  induction waiting generalizing holders with
  | nil => exact h
  | cons t rest ih =>
    rw [letIn]
    split
    · next admitted => exact ih (compatible_of_admits admitted)
    · exact h

/-- A writer keeps everybody else out. -/
theorem letIn_writer (task : Nat) (waiting : List Ticket) :
    letIn [writer task] waiting = ⟨[writer task], waiting⟩ := by
  cases waiting with
  | nil => rfl
  | cons t rest =>
    have refused : admits [writer task] t = false := by
      obtain ⟨_, access⟩ := t
      cases access <;> rfl
    rw [letIn, if_neg (by simp [refused])]

/-! ## Asking -/

@[simp] theorem tickets_request (g : Guard) (task : Nat) (access : Access) :
    (g.request task access).tickets = g.tickets ++ [⟨task, access⟩] := by
  rw [request, settle, tickets_letIn, tickets, List.append_assoc]

theorem compatible_request {g : Guard} (h : Compatible g.holders) (task : Nat) (access : Access) :
    Compatible (g.request task access).holders := compatible_letIn h _

theorem holders_request_of_writer {g : Guard} {owner : Nat} (h : g.holders = [writer owner])
    (task : Nat) (access : Access) : (g.request task access).holders = [writer owner] := by
  simp only [request, settle, h, letIn_writer]

/-! ## Giving back -/

@[simp] theorem tickets_release (g : Guard) (task : Nat) :
    (g.release task).tickets = g.tickets.filter (·.task ≠ task) := by
  rw [release, settle, tickets_letIn, tickets, List.filter_append]

theorem compatible_filter {holders : List Ticket} (h : Compatible holders) (p : Ticket → Bool) :
    Compatible (holders.filter p) := by
  rcases h with shared | ⟨task, alone⟩
  · exact Or.inl fun t ht => shared t (List.mem_filter.mp ht).1
  · rw [alone]
    by_cases kept : p (writer task) = true
    · exact Or.inr ⟨task, by simp [kept]⟩
    · rw [List.filter_cons_of_neg kept]
      exact compatible_nil

theorem compatible_release {g : Guard} (h : Compatible g.holders) (task : Nat) :
    Compatible (g.release task).holders := compatible_letIn (compatible_filter h _) _

theorem holders_release_of_writer {g : Guard} {owner task : Nat} (h : g.holders = [writer owner])
    (other : task ≠ owner) : (g.release task).holders = [writer owner] := by
  have stays : [writer owner].filter (fun t => decide (t.task ≠ task)) = [writer owner] := by
    simp [writer, Ne.symm other]
  simp only [release, settle, h, stays, letIn_writer]

/-! ## Holding -/

theorem holds_iff {g : Guard} {task : Nat} :
    g.holds task = true ↔ ∃ t ∈ g.holders, t.task = task := by
  simp [holds]

/-- Beside a writer nobody holds the guard. -/
theorem eq_of_holds_of_writer {g : Guard} {owner task : Nat} (h : g.holders = [writer owner])
    (holds : g.holds task = true) : task = owner := by
  obtain ⟨t, ht, rfl⟩ := holds_iff.mp holds
  rw [h, List.mem_singleton] at ht
  rw [ht, writer]

/-- A holder whose tickets are all for writing is alone. -/
theorem holders_of_holds {g : Guard} {task : Nat} (h : Compatible g.holders)
    (wants : ∀ t ∈ g.tickets, t.task = task → t.access = .exclusive)
    (holds : g.holds task = true) : g.holders = [writer task] := by
  obtain ⟨t, ht, rfl⟩ := holds_iff.mp holds
  have exclusive : t.access = .exclusive := wants t (List.mem_append_left _ ht) rfl
  rcases h with shared | ⟨owner, alone⟩
  · rw [shared t ht] at exclusive
    cases exclusive
  · rw [alone, List.mem_singleton] at ht
    subst ht
    exact alone

/-! ## Nobody waits in vain -/

/-- Nobody waits for a guard that nobody holds. -/
def Settled (g : Guard) : Prop := g.holders = [] → g.waiting = []

theorem Settled.eq_free {g : Guard} (h : g.Settled) (none : g.holders = []) : g = .free := by
  have waiting := h none
  cases g with
  | mk holders waiting' =>
    cases none
    cases waiting
    rfl

theorem settled_letIn (holders waiting : List Ticket) : (letIn holders waiting).Settled := by
  induction waiting generalizing holders with
  | nil => exact fun _ => rfl
  | cons t rest ih =>
    rw [letIn]
    split
    · exact ih _
    · next refused =>
      -- whoever is not let in has a holder in the way
      intro (none : holders = [])
      subst none
      obtain ⟨task, access⟩ := t
      cases access <;> exact absurd rfl refused

theorem settled_request (g : Guard) (task : Nat) (access : Access) :
    (g.request task access).Settled := settled_letIn _ _

theorem settled_release (g : Guard) (task : Nat) : (g.release task).Settled := settled_letIn _ _

/-! ## What one task can do to the guard -/

/-- The guard has moved on behalf of one task: the others have at most the tickets they had, and
a writer among them still holds it. -/
structure Serves (task : Nat) (g g' : Guard) : Prop where
  compatible : Compatible g.holders → Compatible g'.holders
  others : ∀ t ∈ g'.tickets, t.task ≠ task → t ∈ g.tickets
  writer : ∀ owner, owner ≠ task → g.holders = [writer owner] → g'.holders = [writer owner]

theorem serves_refl (task : Nat) (g : Guard) : Serves task g g :=
  ⟨id, fun _ h _ => h, fun _ _ h => h⟩

theorem Serves.trans {task : Nat} {g g' g'' : Guard} (h : Serves task g g')
    (h' : Serves task g' g'') : Serves task g g'' where
  compatible hc := h'.compatible (h.compatible hc)
  others t ht hne := h.others t (h'.others t ht hne) hne
  writer owner hne hw := h'.writer owner hne (h.writer owner hne hw)

theorem serves_request (task : Nat) (g : Guard) (access : Access) :
    Serves task g (g.request task access) where
  compatible h := compatible_request h task access
  others t ht hne := by
    rw [tickets_request] at ht
    rcases List.mem_append.mp ht with ht | ht
    · exact ht
    · exact absurd (by rw [List.mem_singleton.mp ht]) hne
  writer _ _ h := holders_request_of_writer h task access

theorem serves_release (task : Nat) (g : Guard) : Serves task g (g.release task) where
  compatible h := compatible_release h task
  others t ht _ := by
    rw [tickets_release] at ht
    exact (List.mem_filter.mp ht).1
  writer _ hne h := holders_release_of_writer h (Ne.symm hne)

/-- Whoever gives the guard back has no ticket any more. -/
theorem task_ne_of_mem_release {g : Guard} {task : Nat} {t : Ticket}
    (h : t ∈ (g.release task).tickets) : t.task ≠ task := by
  rw [tickets_release] at h
  simpa using (List.mem_filter.mp h).2

end DurableLog.Guard
