import DurableLog.Proofs.Awaited
import DurableLog.Proofs.Visibility

/-!
# One vote in a term

A client asks whether it may vote for a candidate, and votes if the answer is yes. Question and vote
are two operations, and the term can be set to any value at any time, so two things can go wrong
(`votes_differ`): the term comes back to a value in which a vote was given before, or somebody
else's vote is recorded between a client's question and its vote.

Where neither happens, all votes of a term are for the same candidate (`one_vote_in_term`). Events
are counted, and `World.memoryAt` is what callers see after so many of them.

1. As long as the term stays, only votes change the vote (`World.vote_step`).
2. A vote that is answered well is what the memory holds then (`World.Votes.vote`).
3. So between two votes the memory holds the first one's candidate, and whoever asks for another one
   is told no.
-/

namespace DurableLog

/-- A write that leaves the term alone leaves the vote alone, unless it votes. -/
theorem Memory.vote_perform {m : Memory} {mutation : Mutation}
    (same : (m.perform mutation .kept).2.term = m.term) :
    (m.perform mutation .kept).2.vote = m.vote ∨
      ∃ c, mutation = .vote c ∧ (m.perform mutation .kept).2.vote = some c := by
  rcases m.perform_cases mutation .kept with still | ⟨p, publishes, published⟩
  · exact .inl (by rw [still])
  · rw [published] at same ⊢
    cases publishes with
    | append => exact .inl rfl
    | commit => exact .inl rfl
    | @setTerm term =>
      have set : term = m.term := same
      exact .inl (if_pos set.symm)
    | nextTerm =>
      have grown : m.term + 1 = m.term := same
      simp at grown
    | @vote c => exact .inr ⟨c, rfl, rfl⟩

/-- The task was answered, and well. -/
def Log.answeredWell (log : Log) (id : Nat) : Bool :=
  match log.tasks[id]? with
  | some (.finished (.answered (.ok _))) => true
  | _ => false

theorem Log.answeredWell_iff {log : Log} {id : Nat} :
    log.answeredWell id = true ↔
      ∃ reply, log.tasks[id]? = some (.finished (.answered (.ok reply))) := by
  unfold answeredWell
  split
  · next reply found => simp [found]
  · next other => simpa using other

namespace World

variable {σ : Type} {b : Backend σ} {w : World σ} {events : List Event} {n id : Nat} {c : Member}

/-- What callers see after the first `n` events. -/
def memoryAt (b : Backend σ) (w : World σ) (events : List Event) (n : Nat) : Memory :=
  (w.run b (events.take n)).log.memory

/-- The event behind the first `n` ends a call that votes for the candidate, and it is answered
well. -/
structure Votes (b : Backend σ) (w : World σ) (events : List Event) (n id : Nat) (c : Member) :
    Prop where
  called : (calls events)[id]? = some (.vote c)
  before : (w.run b (events.take n)).log.answeredWell id = false
  after : (w.run b (events.take (n + 1))).log.answeredWell id = true

/-- Whoever votes has asked, after so many events and before the call, and was told yes. -/
def Asked (b : Backend σ) (w : World σ) (events : List Event) (asked : Nat → Nat) : Prop :=
  ∀ id c, (calls events)[id]? = some (.vote c) →
    (calls (events.take (asked id))).length ≤ id ∧
      (w.memoryAt b events (asked id)).isVotedFor c = true

/-- No other candidate is voted for between the question and the vote. -/
def Undisturbed (b : Backend σ) (w : World σ) (events : List Event) (asked : Nat → Nat)
    (n id : Nat) (c : Member) : Prop :=
  ∀ n' id' c', w.Votes b events n' id' c' → asked id ≤ n' → n' < n → c' = c

/-! ## Steps -/

/-- A call keeps its number. -/
theorem called_of_take {call : Call} (called : (calls (events.take n))[id]? = some call) :
    (calls events)[id]? = some call := by
  obtain ⟨more, whole⟩ : calls (events.take n) <+: calls events :=
    (List.take_prefix n events).filterMap Event.call?
  obtain ⟨lt, -⟩ := List.getElem?_eq_some_iff.mp called
  rw [← whole, List.getElem?_append_left lt, called]

/-- What becomes visible in an event is the write of its call. -/
theorem performs_at (orderly : ∀ events, w.Orderly b events) {e : Event} (at_ : events[n]? = some e)
    (published : (w.run b (events.take n)).published? b e = some id) :
    ∃ call mutation, (calls events)[id]? = some call ∧ call.Becomes w.log.intake mutation ∧
      ((w.memoryAt b events n).perform mutation .kept).2.Alike (w.memoryAt b events (n + 1)) ∧
      (w.run b (events.take n)).log.answeredWell id = false ∧
      (w.run b (events.take (n + 1))).log.answeredWell id = true := by
  have next : events.take (n + 1) = events.take n ++ [e] := by
    rw [List.take_add_one, at_]
    rfl
  obtain ⟨mutation, mem, performed⟩ :=
    (orderly (events.take n)).performs (orderly (events.take n ++ [e])) published
  obtain ⟨call, called, becomes⟩ := (orderly (events.take n ++ [e])).origins.writes _ mem
  have shown : id ∈ w.shown b (events.take n ++ [e]) := by
    rw [World.shown, along_concat, published]
    simp
  refine ⟨call, mutation, ?_, becomes, ?_, ?_, ?_⟩
  · rw [← next] at called
    exact called_of_take called
  · rw [memoryAt, memoryAt, next, run_append]
    exact performed
  · rcases (published?_eq_some published).2 with ⟨_, begun⟩ | ⟨_, kept⟩
    · obtain ⟨-, writing, -⟩ := begun?_eq_some begun
      simp [Log.answeredWell, writing]
    · simp [Log.answeredWell, kept]
  · rw [next]
    exact Log.answeredWell_iff.mpr ((orderly _).accounts.shown id shown).2.2

/-- As long as the term stays, only votes change the vote. -/
theorem vote_step (orderly : ∀ events, w.Orderly b events) {n : Nat}
    (same : (w.memoryAt b events (n + 1)).term = (w.memoryAt b events n).term) :
    (w.memoryAt b events (n + 1)).vote = (w.memoryAt b events n).vote ∨
      ∃ id c, w.Votes b events n id c ∧ (w.memoryAt b events (n + 1)).vote = some c := by
  cases at_ : events[n]? with
  | none =>
    rw [memoryAt, memoryAt, List.take_add_one, at_]
    exact .inl (by simp)
  | some e =>
    cases published : (w.run b (events.take n)).published? b e with
    | none =>
      have next : events.take (n + 1) = events.take n ++ [e] := by
        rw [List.take_add_one, at_]
        rfl
      rw [memoryAt, memoryAt, next, run_append]
      exact .inl (alike_of_hidden published).vote
    | some id =>
      obtain ⟨call, mutation, called, becomes, performed, before, after⟩ :=
        performs_at orderly at_ published
      rcases Memory.vote_perform (performed.term.symm.trans same) with still | ⟨c, rfl, votes⟩
      · exact .inl (performed.vote.trans still)
      · cases becomes
        exact .inr ⟨id, c, ⟨called, before, after⟩, performed.vote.trans votes⟩

/-- Nothing but its vote ends a call that votes well. -/
theorem Votes.published (orderly : ∀ events, w.Orderly b events) (h : w.Votes b events n id c) :
    ∃ e, events[n]? = some e ∧ (w.run b (events.take n)).published? b e = some id := by
  obtain ⟨called, before, after⟩ := h
  cases at_ : events[n]? with
  | none =>
    rw [List.take_add_one, at_, Option.toList_none, List.append_nil, before] at after
    cases after
  | some e =>
    refine ⟨e, rfl, ?_⟩
    have next : events.take (n + 1) = events.take n ++ [e] := by
      rw [List.take_add_one, at_]
      rfl
    have shown : id ∈ w.shown b (events.take (n + 1)) := by
      have run := orderly (events.take (n + 1))
      obtain ⟨reply, after⟩ := Log.answeredWell_iff.mp after
      have made : (calls (events.take (n + 1)))[id]? = some (.vote c) := by
        obtain ⟨lt, -⟩ := Array.getElem?_eq_some_iff.mp after
        rw [run.origins.size] at lt
        rw [List.getElem?_eq_getElem lt, ← called_of_take (List.getElem?_eq_getElem lt), called]
      rcases run.answeredInOrder made rfl after with
        ⟨fault, -, same, -⟩ | ⟨earlier, mutation, place, -⟩
      · cases same
      · rcases run.visible_of_ok place after with shown | planned
        · exact shown
        · obtain ⟨call, made', becomes⟩ :=
            run.origins.writes _ (place.subset List.mem_concat_self)
          rw [made] at made'
          cases made'
          cases becomes
          cases planned
    rw [World.shown, next, along_concat, List.mem_append] at shown
    rcases shown with old | new
    · rw [Log.answeredWell_iff.mpr ((orderly _).accounts.shown id old).2.2] at before
      cases before
    · simpa using new

/-- A vote that is answered well is what callers see then. -/
theorem Votes.vote (orderly : ∀ events, w.Orderly b events) (h : w.Votes b events n id c) :
    (w.memoryAt b events (n + 1)).vote = some c := by
  obtain ⟨e, at_, published⟩ := h.published orderly
  obtain ⟨call, mutation, called, becomes, performed, -⟩ := performs_at orderly at_ published
  rw [h.called] at called
  cases called
  cases becomes
  exact performed.vote

theorem Votes.term (orderly : ∀ events, w.Orderly b events) (h : w.Votes b events n id c) :
    (w.memoryAt b events (n + 1)).term = (w.memoryAt b events n).term := by
  obtain ⟨e, at_, published⟩ := h.published orderly
  obtain ⟨call, mutation, called, becomes, performed, -⟩ := performs_at orderly at_ published
  rw [h.called] at called
  cases called
  cases becomes
  exact performed.term

/-- The question comes before the vote. -/
theorem Votes.asked_le {asked : Nat → Nat} (orderly : ∀ events, w.Orderly b events)
    (asks : w.Asked b events asked) (h : w.Votes b events n id c) : asked id ≤ n := by
  obtain ⟨early, -⟩ := asks id c h.called
  obtain ⟨reply, after⟩ := Log.answeredWell_iff.mp h.after
  obtain ⟨lt, -⟩ := Array.getElem?_eq_some_iff.mp after
  rw [(orderly _).origins.size] at lt
  refine Classical.byContradiction fun late => ?_
  have within : events.take (n + 1) <+: events.take (asked id) :=
    List.take_prefix_take_left (by omega)
  have fewer := (within.filterMap Event.call?).length_le
  have many : (calls (events.take (n + 1))).length ≤ (calls (events.take (asked id))).length :=
    fewer
  omega

/-! ## Between two votes -/

/-- While the term stays and nobody votes in between question and vote, the first vote stands. -/
theorem Votes.stands {asked : Nat → Nat} (orderly : ∀ events, w.Orderly b events)
    (asks : w.Asked b events asked) {n₁ n₂ : Nat} (first : w.Votes b events n₁ id c)
    (steady : ∀ n, n₁ ≤ n → n ≤ n₂ → (w.memoryAt b events n).term = (w.memoryAt b events n₁).term)
    (undisturbed : ∀ n id c, n₁ < n → n < n₂ → w.Votes b events n id c →
      w.Undisturbed b events asked n id c)
    (later : n₁ < n₂) : (w.memoryAt b events n₂).vote = some c := by
  induction n₂ using Nat.strongRecOn with
  | ind n₂ ih =>
    have standing (n : Nat) (after : n₁ < n) (before : n < n₂) :
        (w.memoryAt b events n).vote = some c :=
      ih n before (fun k low high => steady k low (by omega))
        (fun k id c low high => undisturbed k id c low (by omega)) after
    obtain ⟨n, rfl⟩ : ∃ n, n₂ = n + 1 := ⟨n₂ - 1, by omega⟩
    by_cases next : n = n₁
    · subst next
      exact first.vote orderly
    · have same :=
        (steady (n + 1) (by omega) (by omega)).trans (steady n (by omega) (by omega)).symm
      rcases vote_step orderly same with still | ⟨id', c', votes, changed⟩
      · rw [still]
        exact standing n (by omega) (by omega)
      · have asked_le := votes.asked_le orderly asks
        have told := (asks id' c' votes.called).2
        have agrees : c = c' := by
          by_cases early : asked id' ≤ n₁
          · exact undisturbed n id' c' (by omega) (by omega) votes n₁ id c first early (by omega)
          · -- whoever asks while the vote stands is told no, unless it is for the same candidate
            have stood := standing (asked id') (by omega) (by omega)
            simpa [Memory.isVotedFor, stood] using told
        rw [changed, agrees]

end World

/-- **At most one vote in a term**, as long as the term is not changed in between and nobody else's
vote comes between a question and its vote. -/
theorem one_vote_in_term {σ : Type} (b : Backend σ) (config : Config) (r : Replica) (store : σ)
    {events : List Event} {asked : Nat → Nat} {n₁ n₂ id₁ id₂ : Nat} {c₁ c₂ : Member}
    (asks : (World.start config r store).Asked b events asked)
    (steady : ∀ n, n₁ ≤ n → n ≤ n₂ →
      ((World.start config r store).memoryAt b events n).term =
        ((World.start config r store).memoryAt b events n₁).term)
    (undisturbed : ∀ n id c, n₁ < n → n ≤ n₂ → (World.start config r store).Votes b events n id c →
      (World.start config r store).Undisturbed b events asked n id c)
    (order : n₁ ≤ n₂) (first : (World.start config r store).Votes b events n₁ id₁ c₁)
    (second : (World.start config r store).Votes b events n₂ id₂ c₂) : c₁ = c₂ := by
  have orderly := World.orderly_run b config r store
  have last := second.vote orderly
  have whole : ∀ n, n₁ ≤ n → n ≤ n₂ + 1 →
      ((World.start config r store).memoryAt b events n).term =
        ((World.start config r store).memoryAt b events n₁).term := by
    intro n low high
    by_cases end_ : n = n₂ + 1
    · rw [end_, second.term orderly]
      exact steady n₂ order (Nat.le_refl _)
    · exact steady n low (by omega)
  have stands := first.stands orderly asks whole
    (fun n id c low high => undisturbed n id c low (by omega)) (by omega)
  rw [last] at stands
  exact (Option.some.inj stands).symm

/-- In term 1 one candidate is voted for, in term 2 another one, twice. -/
theorem one_vote_in_term_again :
    let b : Backend Unit := .volatile Unit
    let w := World.start .default .empty ()
    let events : List Event :=
      [.call (.setTerm 1), .turn 0, .call (.vote ⟨1⟩), .turn 1, .call (.setTerm 2), .turn 2,
        .call (.vote ⟨2⟩), .turn 3, .call (.vote ⟨2⟩), .turn 4]
    w.Asked b events (2 * ·) ∧ w.Votes b events 7 3 ⟨2⟩ ∧ w.Votes b events 9 4 ⟨2⟩ ∧
      (∀ n, 7 ≤ n → n ≤ 9 → (w.memoryAt b events n).term = (w.memoryAt b events 7).term) ∧
      (∀ n id c, 7 < n → n ≤ 9 → w.Votes b events n id c →
        w.Undisturbed b events (2 * ·) n id c) ∧
      (⟨2⟩ : Member) = ⟨2⟩ := by
  intro b w events
  have asks : w.Asked b events (2 * ·) := by
    rintro (_ | _ | _ | _ | _ | id) c called
    all_goals cases called
    all_goals exact ⟨by decide, by decide +kernel⟩
  have first : w.Votes b events 7 3 ⟨2⟩ := ⟨rfl, by decide +kernel, by decide +kernel⟩
  have second : w.Votes b events 9 4 ⟨2⟩ := ⟨rfl, by decide +kernel, by decide +kernel⟩
  have steady : ∀ n < 10, 7 ≤ n → (w.memoryAt b events n).term = (w.memoryAt b events 7).term := by
    decide +kernel
  -- the vote of the term before is over by then
  have ended : ∀ n < 10, 6 ≤ n → (w.run b (events.take n)).log.answeredWell 1 = true := by
    decide +kernel
  have second_term (n id : Nat) (c : Member) (low : 6 ≤ n) (high : n < 10)
      (votes : w.Votes b events n id c) : c = ⟨2⟩ := by
    have called := votes.called
    rcases id with _ | _ | _ | _ | _ | id <;> cases called
    · have before := votes.before
      rw [ended n high low] at before
      cases before
    · rfl
    · rfl
  have undisturbed : ∀ n id c, 7 < n → n ≤ 9 → w.Votes b events n id c →
      w.Undisturbed b events (2 * ·) n id c := by
    intro n id c low high votes n' id' c' votes' after before
    have recent : 6 ≤ n' := by
      have called := votes.called
      rcases id with _ | _ | _ | _ | _ | id <;> cases called
      · have before := votes.before
        rw [ended n (by omega) (by omega)] at before
        cases before
      · exact after
      · exact Nat.le_trans (by decide) after
    rw [second_term n id c (by omega) (by omega) votes,
      second_term n' id' c' recent (by omega) votes']
  exact ⟨asks, first, second, fun n low high => steady n (by omega) low, undisturbed,
    one_vote_in_term b .default .empty () asks (fun n low high => steady n (by omega) low)
      undisturbed (by decide) first second⟩

/-- In the first run the term comes back to 1, in which the first vote was given. In the second both
clients ask before either votes. -/
theorem votes_differ :
    let b : Backend Unit := .volatile Unit
    let w := World.start .default .empty ()
    let back : List Event :=
      [.call (.setTerm 1), .turn 0, .call (.vote ⟨1⟩), .turn 1, .call (.setTerm 2), .turn 2,
        .call (.setTerm 1), .turn 3, .call (.vote ⟨2⟩), .turn 4]
    let race : List Event := [.call (.vote ⟨1⟩), .turn 0, .call (.vote ⟨2⟩), .turn 1]
    (w.Asked b back (2 * ·) ∧ w.Votes b back 3 1 ⟨1⟩ ∧ w.Votes b back 9 4 ⟨2⟩ ∧
      (w.memoryAt b back 4).term = (w.memoryAt b back 10).term) ∧
      w.Asked b race (fun _ => 0) ∧ w.Votes b race 1 0 ⟨1⟩ ∧ w.Votes b race 3 1 ⟨2⟩ ∧
        (w.memoryAt b race 2).term = (w.memoryAt b race 4).term := by
  intro b w back race
  refine ⟨⟨?_, ⟨rfl, ?_, ?_⟩, ⟨rfl, ?_, ?_⟩, ?_⟩, ?_, ⟨rfl, ?_, ?_⟩, ⟨rfl, ?_, ?_⟩, ?_⟩
  case refine_1 =>
    rintro (_ | _ | _ | _ | _ | id) c called
    all_goals cases called
    · exact ⟨by decide, by decide +kernel⟩
    · exact ⟨by decide, by decide +kernel⟩
  case refine_7 =>
    rintro (_ | _ | id) c called
    all_goals cases called
    · exact ⟨by decide, by decide +kernel⟩
    · exact ⟨by decide, by decide +kernel⟩
  all_goals decide +kernel

end DurableLog
