import DurableLog.Proofs.Linearization

/-!
# What becomes visible, event by event

An event leaves what callers see alone (`World.alike_of_hidden`), or it makes one write visible and
does nothing else to the memory (`Orderly.performs`). However a run goes on, what a write has read
stays what the visible writes before it lead to (`Orderly.seen_of_begun`).
-/

namespace DurableLog

namespace Memory

variable {m m' : Memory}

theorem Alike.symm (h : m.Alike m') : m'.Alike m where
  snapshot := h.snapshot.symm
  commitIndex := h.commitIndex.symm
  published := h.published.symm
  term := h.term.symm
  vote := h.vote.symm

/-- A write does the same to memories alike. -/
theorem Alike.performs (h : m.Alike m') (mutation : Mutation) (r : HookResult) :
    (m.perform mutation r).2.Alike (m'.perform mutation r).2 := by
  have plan := h.plan mutation
  cases planned : m.plan mutation with
  | refuse fault => rwa [perform_of_refuse planned, perform_of_refuse (plan.trans planned)]
  | answer reply => rwa [perform_of_answer planned, perform_of_answer (plan.trans planned)]
  | keep hook p =>
    rw [perform_of_keep planned, perform_of_keep (plan.trans planned)]
    exact (h.outcome p r).2

end Memory

namespace World

variable {σ : Type} {b : Backend σ} {w : World σ} {id : Nat}

theorem mem_along {α : Type} {f : World σ → Event → Option α} {y : α} {events : List Event} :
    y ∈ w.along b f events ↔
      ∃ first e rest, events = first ++ e :: rest ∧ f (w.run b first) e = some y := by
  constructor
  · intro mem
    induction events generalizing w with
    | nil => cases mem
    | cons e rest ih =>
      rcases List.mem_append.mp mem with here | later
      · exact ⟨[], e, rest, rfl, by simpa using here⟩
      · obtain ⟨first, e', rest', rfl, found⟩ := ih later
        exact ⟨e :: first, e', rest', rfl, found⟩
  · rintro ⟨first, e, rest, rfl, found⟩
    rw [along_append, along]
    exact List.mem_append_right _ (List.mem_append_left _ (by simp [found]))

/-- An event that makes nothing visible leaves alone what callers see. -/
theorem alike_of_hidden {e : Event} (hidden : w.published? b e = none) :
    w.log.memory.Alike (w.step b e).log.memory := by
  cases deed_step b w e with
  | aside _ _ _ _ _ _ memory _ => exact memory
  | @reads id mutation ht holds _ =>
    have stepped : (w.step b (.turn id)).log = (w.log.write b id mutation w.store).1 := by
      simp [step, Log.turn?, ht, holds, moved]
    rw [stepped]
    cases planned : w.log.memory.plan mutation with
    | refuse fault =>
      simp only [Log.write, planned]
      exact .refl _
    | answer reply =>
      simp only [Log.write, planned]
      exact .refl _
    | keep hook p =>
      cases blocking : b.blocking with
      | true =>
        simp only [Log.write, planned, blocking, if_true]
        exact .refl _
      | false =>
        have offered : w.offered? b (.turn id) = some (id, hook) := by
          simp [offered?, ht, holds, blocking, planned]
        have lost : (b.keep hook w.store).1 ≠ .kept := by
          intro kept
          simp [published?, ht, accepted?_of_offered offered, kept] at hidden
        rw [Log.write_of_nonblocking blocking planned]
        simp only
        split
        · exact .refl _
        · show w.log.memory.Alike (p.outcome w.log.memory (b.keep hook w.store).1).2
          rw [p.outcome_of_not_kept w.log.memory lost]
          exact .refl _
  | @returns id ran found _ =>
    have same : (w.step b (.hookReturns id)).log.memory = w.log.memory := by
      simp only [step, Log.hookReturns?, found]
      by_cases panicked : (b.keep ran.2 w.store).1 = .panicked
      · simp only [panicked, if_true]
        split <;> rfl
      · simp only [panicked, if_false]
        split <;> rfl
    rw [same]
    exact .refl _
  | @publishes id p result ht _ =>
    have lost : result ≠ .kept := by
      rintro rfl
      simp [published?, ht] at hidden
    have memory : (w.step b (.turn id)).log.memory = (p.outcome w.log.memory result).2 := by
      simp [step, Log.turn?, ht, moved, Log.publish, Log.conclude, Log.finish, Log.setTask,
        Log.release]
    rw [memory, p.outcome_of_not_kept w.log.memory lost]
    exact .refl _

namespace Orderly

variable {events : List Event}

/-- What becomes visible is the last write of the sequence. -/
theorem last_of_published (h : w.Orderly b events) {e : Event}
    (published : (w.run b events).published? b e = some id) :
    ∃ before mutation, w.sequence b (events ++ [e]) = before ++ [(id, mutation)] ∧
      visible (w.sequence b events) (w.shown b events) = visible before (w.shown b events) := by
  have longer : w.sequence b (events ++ [e]) =
      w.sequence b events ++ ((w.run b events).begun? e).toList := along_concat ..
  rcases (published?_eq_some published).2 with ⟨mutation, begun⟩ | ⟨p, kept⟩
  · exact ⟨w.sequence b events, mutation, by rw [longer, begun]; rfl, rfl⟩
  · obtain ⟨s, standing⟩ := h.standing
    have underway : (w.run b events).log.Underway id := .inr ⟨p, .kept, kept, by simp⟩
    obtain ⟨hidden, before, mutation, whole⟩ := h.accounts.last id underway
    have unread := ((alone_of_underway (b := b) standing underway).2 e).1
    refine ⟨before, mutation, ?_, ?_⟩
    · rw [longer, unread, whole]
      exact List.append_nil _
    · rw [whole, visible_concat_of_not_mem hidden]

/-- What becomes visible is one write, done in the memory of that time. -/
theorem performs (h : w.Orderly b events) {e : Event} (h' : w.Orderly b (events ++ [e]))
    (published : (w.run b events).published? b e = some id) :
    ∃ mutation, (id, mutation) ∈ w.sequence b (events ++ [e]) ∧
      ((w.run b events).log.memory.perform mutation .kept).2.Alike
        ((w.run b events).step b e).log.memory := by
  obtain ⟨before, mutation, sequence, same⟩ := h.last_of_published published
  have shown : w.shown b (events ++ [e]) = w.shown b events ++ [id] := by
    rw [World.shown, along_concat, published]
    rfl
  have absent : id ∉ before.map Prod.fst := by
    have once := h'.accounts.once
    rw [sequence, List.map_append, List.nodup_append] at once
    exact fun mem => once.2.2 id mem id (by simp) rfl
  have before' := h.accounts.memory
  have after := h'.accounts.memory
  rw [same] at before'
  rw [sequence, shown, visible_concat_self (x := (id, mutation)) _ absent, Memory.after_concat,
    run_append] at after
  exact ⟨mutation, by simp [sequence], (before'.symm.performs mutation .kept).trans after⟩

end Orderly

/-- The events up to a later one begin with the first of them. -/
theorem exists_since {e e' : Event} {rest between later : List Event}
    (split : e :: rest = between ++ e' :: later) : ∃ since, between ++ [e'] = e :: since := by
  cases between with
  | nil => exact ⟨[], by simpa using (List.cons.inj split).1.symm⟩
  | cons e'' between => exact ⟨between ++ [e'], by rw [(List.cons.inj split).1]; rfl⟩

/-- Nothing that has read the state before another write becomes visible after that. -/
theorem not_mem_writers_of_later (orderly : ∀ events, w.Orderly b events) {first rest : List Event}
    {e : Event} {x : Nat × Mutation} (begun : (w.run b first).begun? e = some x)
    (later : id ∈ (w.run b first).shown b (e :: rest)) : id ∉ w.writers b first := by
  obtain ⟨between, e', rest', split, published⟩ := mem_along.mp later
  rw [← run_append] at published
  obtain ⟨before, mutation, sequence, -⟩ := (orderly _).last_of_published published
  have once := (orderly (first ++ between ++ [e'])).accounts.once
  -- the events since begin with the one that reads the state
  obtain ⟨since, begins⟩ := exists_since split
  have read : (w.run b first).sequence b (e :: since) =
      x :: ((w.run b first).step b e).sequence b since := by
    rw [World.sequence, along, begun]
    rfl
  rw [List.append_assoc, begins, sequence_append, read] at sequence once
  obtain ⟨front, ends⟩ : ∃ front, x :: ((w.run b first).step b e).sequence b since =
      front ++ [(id, mutation)] := by
    rcases List.append_eq_append_iff.mp sequence with ⟨front, -, ends⟩ | ⟨back, -, ends⟩
    · exact ⟨front, ends⟩
    · obtain ⟨rfl, same⟩ | ⟨_, none⟩ := List.append_eq_singleton_iff.mp ends.symm
      · exact ⟨[], same⟩
      · cases none
  rw [ends, List.map_append, List.map_append, List.nodup_append] at once
  intro mem
  exact once.2.2 id mem id (by simp) rfl

/-- What a write has read is what the visible writes before it lead to, however the run goes on. -/
theorem seen_of_begun (orderly : ∀ events, w.Orderly b events) {first rest : List Event}
    {e : Event} {x : Nat × Mutation} (begun : (w.run b first).begun? e = some x) :
    (w.seen b (first ++ e :: rest) (w.sequence b first)).Alike (w.run b first).log.memory := by
  have shown : w.shown b (first ++ e :: rest) =
      w.shown b first ++ (w.run b first).shown b (e :: rest) := along_append ..
  rw [seen, shown, visible_append _ fun id => not_mem_writers_of_later orderly begun]
  exact (orderly first).accounts.memory

end World

end DurableLog
