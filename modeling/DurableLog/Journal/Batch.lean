import DurableLog.Journal.Record

/-!
# Splitting a batch

A batch of entries too large for one record is stored as several appends at successive indices.
Each takes as many entries as fit the budget, an entry counting for its payload and a fixed
overhead, and at least one.
-/

namespace DurableLog

namespace Entry

/-- What an entry takes of the budget. -/
def cost (e : Entry) : Nat := entryOverhead + e.size

/-- What entries take of the budget together. -/
def totalCost : List Entry → Nat
  | [] => 0
  | e :: rest => e.cost + totalCost rest

end Entry

/-- The first of `entries` that fit into what the budget leaves after `used`, and the others. -/
def fitting (budget used : Nat) : List Entry → List Entry × List Entry
  | [] => ([], [])
  | e :: rest =>
    if used + e.cost ≤ budget then
      let parts := fitting budget (used + e.cost) rest
      (e :: parts.1, parts.2)
    else ([], e :: rest)

theorem length_fitting (budget used : Nat) (entries : List Entry) :
    (fitting budget used entries).2.length ≤ entries.length := by
  induction entries generalizing used with
  | nil => simp [fitting]
  | cons e rest ih =>
    rw [fitting]
    split
    · have := ih (used + e.cost)
      simp only [List.length_cons]
      omega
    · simp

theorem fitting_append (budget used : Nat) (entries : List Entry) :
    (fitting budget used entries).1 ++ (fitting budget used entries).2 = entries := by
  induction entries generalizing used with
  | nil => rfl
  | cons e rest ih =>
    rw [fitting]
    split
    · rw [List.cons_append, ih]
    · rfl

/-- What is taken fits, or nothing is. -/
theorem cost_fitting (budget used : Nat) (entries : List Entry) :
    (fitting budget used entries).1 = [] ∨
      used + Entry.totalCost (fitting budget used entries).1 ≤ budget := by
  induction entries generalizing used with
  | nil => exact .inl rfl
  | cons e rest ih =>
    rw [fitting]
    split
    · next fits =>
      rcases ih (used + e.cost) with none | some
      · exact .inr (by simp only [none, Entry.totalCost]; omega)
      · exact .inr (by simp only [Entry.totalCost]; omega)
    · exact .inl rfl

/-- The batch in groups that each fit the budget or hold a single entry. -/
def groups (budget : Nat) : List Entry → List (List Entry)
  | [] => []
  | e :: rest =>
    let parts := fitting budget e.cost rest
    (e :: parts.1) :: groups budget parts.2
termination_by entries => entries.length
decreasing_by
  have := length_fitting budget e.cost rest
  simp only [List.length_cons]
  omega

/-- A group fits the budget or holds a single entry. -/
theorem cost_of_mem_groups {budget : Nat} {batch group : List Entry}
    (h : group ∈ groups budget batch) :
    Entry.totalCost group ≤ budget ∨ ∃ e, group = [e] := by
  fun_induction groups budget batch with
  | case1 => simp at h
  | case2 e rest parts ih =>
    rcases List.mem_cons.mp h with rfl | h
    · rcases cost_fitting budget e.cost rest with none | fits
      · exact .inr ⟨e, by rw [show parts.1 = [] from none]⟩
      · exact .inl fits
    · exact ih h

/-- No group is empty. -/
theorem ne_nil_of_mem_groups {budget : Nat} {batch group : List Entry}
    (h : group ∈ groups budget batch) : group ≠ [] := by
  fun_induction groups budget batch with
  | case1 => simp at h
  | case2 e rest parts ih =>
    rcases List.mem_cons.mp h with rfl | h
    · exact List.cons_ne_nil _ _
    · exact ih h

/-- The groups hold the batch, in order. -/
theorem flatten_groups (budget : Nat) (batch : List Entry) :
    (groups budget batch).flatten = batch := by
  fun_induction groups budget batch with
  | case1 => rfl
  | case2 e rest parts ih => rw [List.flatten_cons, ih, List.cons_append, fitting_append]

/-- Appends of the groups, each behind the one before. -/
def appendsFrom (start : Nat) : List (List Entry) → List Change
  | [] => []
  | group :: rest =>
    .append (UInt64.ofNat start) (group.map StoredEntry.ofEntry)
      :: appendsFrom (start + group.length) rest

theorem appendsFrom_ne_nil (start : Nat) {parts : List (List Entry)} (some : parts ≠ []) :
    appendsFrom start parts ≠ [] := by
  cases parts with
  | nil => exact absurd rfl some
  | cons group rest => exact List.cons_ne_nil _ _

/-- Every append is that of a group. -/
theorem mem_appendsFrom {start : Nat} {parts : List (List Entry)} {change : Change}
    (mem : change ∈ appendsFrom start parts) :
    ∃ first, ∃ group ∈ parts, change = .append first (group.map .ofEntry) := by
  induction parts generalizing start with
  | nil => cases mem
  | cons group rest ih =>
    rw [appendsFrom] at mem
    rcases List.mem_cons.mp mem with rfl | mem
    · exact ⟨_, group, List.mem_cons_self, rfl⟩
    · obtain ⟨first, found, mem, made⟩ := ih mem
      exact ⟨first, found, List.mem_cons_of_mem _ mem, made⟩

/-- The first appends are those of the first groups. -/
theorem take_appendsFrom (start j : Nat) (groups : List (List Entry)) :
    (appendsFrom start groups).take j = appendsFrom start (groups.take j) := by
  induction groups generalizing start j with
  | nil => simp [appendsFrom]
  | cons group rest ih =>
    cases j with
    | zero => rfl
    | succ j => rw [appendsFrom, List.take_succ_cons, List.take_succ_cons, appendsFrom, ih]

/-- The changes that store a batch at `start`. An empty batch is one empty append. -/
def splitAppend (start : Nat) (batch : List Entry) (budget : Nat) : List Change :=
  match groups budget batch with
  | [] => [.append (UInt64.ofNat start) []]
  | parts => appendsFrom start parts

theorem splitAppend_of_ne_nil (start : Nat) {batch : List Entry} (some : batch ≠ [])
    (budget : Nat) : splitAppend start batch budget = appendsFrom start (groups budget batch) := by
  have whole := flatten_groups budget batch
  unfold splitAppend
  split
  · next none =>
    rw [none] at whole
    exact absurd whole.symm some
  · rfl

end DurableLog
