import Liquibook.Containers.IntrusiveList
import Mathlib.Logic.Function.Basic

/-!
# Intrusive lists over one memory

The lists of the source own no nodes: every list of a program links objects of the same
memory, and any number of them may do so at once.  What keeps them apart is how they are
used.  A node is pushed onto a list only while it is in none, and removed only from the
list it is in (the comment on `remove`).  Under that discipline each list is a sequence of
its own.

## Main definitions

* `ListCall`, `Lists`, `Lists.step`, `Lists.run` — calls on any number of lists over one
  memory, and runs of them.
* `ListCall.expected`, `ListCall.Legal`, `LegalCalls` — what a call does to the sequences,
  and when it may be made.
* `Lists.Refines` — every traversal of every list is its sequence.
* `Lists.Local` — a call disturbs nothing outside its list.

## Main results

* `Holds.step`, `Holds.run` — a legal call, and a legal run, keep every list in order.
* `intrusiveLists_refine_sequences` — **each list is a sequence, and no list can tell that
  there are others.**
-/

namespace Liquibook

open Lib

/-- A call on one of the lists. -/
inductive ListCall (ι : Type) where
  | pushBack (list : ι) (node : ℕ)
  | pushFront (list : ι) (node : ℕ)
  | remove (list : ι) (node : ℕ)
  deriving DecidableEq, Repr

/-- One memory, and lists over it. -/
structure Lists (H ι : Type) where
  heap : H
  lists : ι → IntrusiveList

namespace ListCall

variable {ι : Type} [DecidableEq ι]

/-- The list a call is made on. -/
def list : ListCall ι → ι
  | .pushBack k _ => k
  | .pushFront k _ => k
  | .remove k _ => k

/-- The node a call is made with. -/
def node : ListCall ι → ℕ
  | .pushBack _ n => n
  | .pushFront _ n => n
  | .remove _ n => n

/-- What a call does to the sequences. -/
def expected (seqs : ι → List ℕ) : ListCall ι → ι → List ℕ
  | .pushBack k n => Function.update seqs k (seqs k ++ [n])
  | .pushFront k n => Function.update seqs k (n :: seqs k)
  | .remove k n => Function.update seqs k ((seqs k).erase n)

/-- A node is pushed while it is in no list, and removed from the list it is in. -/
def Legal (seqs : ι → List ℕ) : ListCall ι → Prop
  | .pushBack _ n => ∀ k, n ∉ seqs k
  | .pushFront _ n => ∀ k, n ∉ seqs k
  | .remove k n => n ∈ seqs k

end ListCall

/-- Every call may be made when it is made. -/
def LegalCalls {ι : Type} [DecidableEq ι] : (ι → List ℕ) → List (ListCall ι) → Prop
  | _, [] => True
  | seqs, call :: calls => call.Legal seqs ∧ LegalCalls (call.expected seqs) calls

namespace Lists

open NodeHeap

variable {H ι : Type} [NodeHeap H] [DecidableEq ι]

/-- Make a call. -/
def step (s : Lists H ι) : ListCall ι → Lists H ι
  | .pushBack k n =>
      { heap := ((s.lists k).pushBack s.heap n).1
        lists := Function.update s.lists k ((s.lists k).pushBack s.heap n).2 }
  | .pushFront k n =>
      { heap := ((s.lists k).pushFront s.heap n).1
        lists := Function.update s.lists k ((s.lists k).pushFront s.heap n).2 }
  | .remove k n =>
      { heap := ((s.lists k).remove s.heap n).1
        lists := Function.update s.lists k ((s.lists k).remove s.heap n).2 }

/-- Make a sequence of calls. -/
def run (s : Lists H ι) (calls : List (ListCall ι)) : Lists H ι := calls.foldl step s

/-- Iteration from `front()`, for at most `fuel` nodes. -/
def forward (s : Lists H ι) (k : ι) (fuel : ℕ) : Option (List ℕ) := (s.lists k).nodes s.heap fuel

/-- Iteration from `back()` along `prev`, for at most `fuel` nodes. -/
def backward (s : Lists H ι) (k : ι) (fuel : ℕ) : Option (List ℕ) :=
  walk (prev s.heap) fuel (s.lists k).tail

/-- Every list is its sequence, whichever way it is read, and traversals end. -/
structure Refines (s : Lists H ι) (seqs : ι → List ℕ) : Prop where
  forward_eq : ∀ k fuel, (seqs k).length ≤ fuel → s.forward k fuel = some (seqs k)
  backward_eq : ∀ k fuel, (seqs k).length ≤ fuel → s.backward k fuel = some (seqs k).reverse
  size_eq : ∀ k, (s.lists k).size = (seqs k).length
  empty_iff : ∀ k, (s.lists k).empty = true ↔ seqs k = []
  nodup : ∀ k, (seqs k).Nodup
  /-- No node is in two lists. -/
  apart : ∀ j k, j ≠ k → ∀ n ∈ seqs j, n ∉ seqs k

/-- A call disturbs nothing outside its list. -/
structure Local (s : Lists H ι) (seqs : ι → List ℕ) (call : ListCall ι) : Prop where
  /-- The other lists stay as they are. -/
  lists_eq : ∀ k, k ≠ call.list → (s.step call).lists k = s.lists k
  forward_eq : ∀ k, k ≠ call.list → ∀ fuel, (seqs k).length ≤ fuel →
    (s.step call).forward k fuel = s.forward k fuel
  backward_eq : ∀ k, k ≠ call.list → ∀ fuel, (seqs k).length ≤ fuel →
    (s.step call).backward k fuel = s.backward k fuel
  /-- So do the links of every node outside the list. -/
  links_eq : ∀ n, n ∉ seqs call.list → n ≠ call.node →
    next (s.step call).heap n = next s.heap n ∧ prev (s.step call).heap n = prev s.heap n
  /-- A node removed is left with null links. -/
  removed : ∀ k n, call = .remove k n →
    next (s.step call).heap n = none ∧ prev (s.step call).heap n = none

/-- The lists hold these sequences, and share no node. -/
structure Holds (s : Lists H ι) (seqs : ι → List ℕ) : Prop where
  represents : ∀ k, IntrusiveList.Represents s.heap (s.lists k) (seqs k)
  apart : ∀ j k, j ≠ k → ∀ n ∈ seqs j, n ∉ seqs k

/-! ### One call -/

/-- A call writes the header of its own list only. -/
theorem step_lists_of_ne (s : Lists H ι) (call : ListCall ι) {k : ι} (hk : k ≠ call.list) :
    (s.step call).lists k = s.lists k := by
  cases call <;> exact Function.update_of_ne hk _ _

omit [NodeHeap H] in
theorem expected_of_ne (seqs : ι → List ℕ) (call : ListCall ι) {k : ι} (hk : k ≠ call.list) :
    call.expected seqs k = seqs k := by
  cases call <;> exact Function.update_of_ne hk _ _

namespace Holds

variable {s : Lists H ι} {seqs : ι → List ℕ} {call : ListCall ι}

omit [DecidableEq ι] in
theorem init (heap : H) : Holds (ι := ι) { heap := heap, lists := fun _ => {} } fun _ => [] where
  represents := fun _ => IntrusiveList.Represents.nil heap
  apart := by simp

/-- **A legal call leaves the links of the nodes outside its list alone.** -/
theorem links_eq (h : Holds s seqs) (hlegal : call.Legal seqs) {n : ℕ}
    (hn : n ∉ seqs call.list) (hne : n ≠ call.node) :
    next (s.step call).heap n = next s.heap n ∧ prev (s.step call).heap n = prev s.heap n := by
  cases call with
  | pushBack k node => exact (h.represents k).pushBack_outside hn hne
  | pushFront k node => exact (h.represents k).pushFront_outside hn hne
  | remove k node => exact (h.represents k).remove_outside hlegal hn

omit [DecidableEq ι] in
/-- A node of another list is outside the list of the call, and is not its node. -/
theorem outside (h : Holds s seqs) (hlegal : call.Legal seqs) {k : ι} (hk : k ≠ call.list) {n : ℕ}
    (hn : n ∈ seqs k) : n ∉ seqs call.list ∧ n ≠ call.node := by
  refine ⟨h.apart k call.list hk n hn, ?_⟩
  cases call with
  | pushBack j node =>
    rintro rfl
    exact hlegal k hn
  | pushFront j node =>
    rintro rfl
    exact hlegal k hn
  | remove j node =>
    rintro rfl
    exact h.apart k j hk _ hn hlegal

/-- The list of the call becomes the sequence expected. -/
theorem represents_own (h : Holds s seqs) (hlegal : call.Legal seqs) :
    IntrusiveList.Represents (s.step call).heap ((s.step call).lists call.list)
      (call.expected seqs call.list) := by
  cases call with
  | pushBack k node =>
    simp only [step, ListCall.list, ListCall.expected, Function.update_self]
    exact (h.represents k).pushBack (hlegal k)
  | pushFront k node =>
    simp only [step, ListCall.list, ListCall.expected, Function.update_self]
    exact (h.represents k).pushFront (hlegal k)
  | remove k node =>
    simp only [step, ListCall.list, ListCall.expected, Function.update_self]
    have herase : (seqs k).erase node = (seqs k).filter (· ≠ node) := by
      rw [(h.represents k).threads.nodup.erase_eq_filter]
      refine List.filter_congr fun j _ => ?_
      by_cases hj : j = node <;> simp [hj]
    rw [herase]
    exact (h.represents k).remove hlegal

omit [NodeHeap H] in
/-- Nothing but the node of the call enters its list. -/
theorem mem_expected {n : ℕ} (hn : n ∈ call.expected seqs call.list) :
    n ∈ seqs call.list ∨ n = call.node := by
  cases call with
  | pushBack k node =>
    simp only [ListCall.list, ListCall.expected, Function.update_self] at hn
    rcases List.mem_append.mp hn with hn | hn
    · exact Or.inl hn
    · exact Or.inr (List.mem_singleton.mp hn)
  | pushFront k node =>
    simp only [ListCall.list, ListCall.expected, Function.update_self] at hn
    rcases List.mem_cons.mp hn with hn | hn
    · exact Or.inr hn
    · exact Or.inl hn
  | remove k node =>
    simp only [ListCall.list, ListCall.expected, Function.update_self] at hn
    exact Or.inl (List.mem_of_mem_erase hn)

/-- **A legal call keeps every list in order**: its own list becomes the sequence
expected, and the others are not touched. -/
theorem step (h : Holds s seqs) (hlegal : call.Legal seqs) :
    Holds (s.step call) (call.expected seqs) where
  represents := by
    intro k
    by_cases hk : k = call.list
    · rw [hk]
      exact h.represents_own hlegal
    · rw [step_lists_of_ne s call hk, expected_of_ne seqs call hk]
      refine (h.represents k).frame (fun n hn => ?_) fun n hn => ?_
      · obtain ⟨hout, hne⟩ := h.outside hlegal hk hn
        exact (h.links_eq hlegal hout hne).1
      · obtain ⟨hout, hne⟩ := h.outside hlegal hk hn
        exact (h.links_eq hlegal hout hne).2
  apart := by
    -- a node in the list of the call was there before or in no list at all
    have hown : ∀ k, k ≠ call.list → ∀ n ∈ call.expected seqs call.list, n ∉ seqs k := by
      intro k hk n hn hnk
      obtain ⟨hout, hne⟩ := h.outside hlegal hk hnk
      rcases mem_expected hn with hin | hnode
      · exact hout hin
      · exact hne hnode
    intro j k hjk n hn
    by_cases hj : j = call.list
    · subst hj
      rw [expected_of_ne seqs call (Ne.symm hjk)]
      exact hown k (Ne.symm hjk) n hn
    · rw [expected_of_ne seqs call hj] at hn
      by_cases hk : k = call.list
      · subst hk
        exact fun hnk => hown j hj n hnk hn
      · rw [expected_of_ne seqs call hk]
        exact h.apart j k hjk n hn

/-! ### What can be seen of the lists -/

omit [DecidableEq ι] in
theorem forward_eq (h : Holds s seqs) (k : ι) {fuel : ℕ} (hf : (seqs k).length ≤ fuel) :
    s.forward k fuel = some (seqs k) :=
  (h.represents k).nodes_eq hf

omit [DecidableEq ι] in
theorem backward_eq (h : Holds s seqs) (k : ι) {fuel : ℕ} (hf : (seqs k).length ≤ fuel) :
    s.backward k fuel = some (seqs k).reverse := by
  rw [backward, (h.represents k).tail_eq, ← List.head?_reverse]
  exact (h.represents k).threads.reverse.walk_eq (by simpa using hf)

omit [DecidableEq ι] in
theorem refines (h : Holds s seqs) : Refines s seqs where
  forward_eq := fun k _ hf => h.forward_eq k hf
  backward_eq := fun k _ hf => h.backward_eq k hf
  size_eq := fun k => (h.represents k).size_eq
  empty_iff := fun k => (h.represents k).empty_iff
  nodup := fun k => (h.represents k).threads.nodup
  apart := h.apart

/-- **A legal call disturbs nothing outside its list.** -/
theorem isLocal (h : Holds s seqs) (hlegal : call.Legal seqs) : Local s seqs call where
  lists_eq := fun _ hk => step_lists_of_ne s call hk
  forward_eq := by
    intro k hk fuel hf
    have hsame := expected_of_ne seqs call hk
    rw [(h.step hlegal).forward_eq k (hsame ▸ hf), h.forward_eq k hf, hsame]
  backward_eq := by
    intro k hk fuel hf
    have hsame := expected_of_ne seqs call hk
    rw [(h.step hlegal).backward_eq k (hsame ▸ hf), h.backward_eq k hf, hsame]
  links_eq := fun _ hn hne => h.links_eq hlegal hn hne
  removed := by
    rintro k n rfl
    obtain ⟨hp, hn⟩ := (h.represents k).links_ne_self hlegal
    obtain ⟨hnext, hprev⟩ := IntrusiveList.links_remove s.heap (s.lists k) n n hp hn
    rw [if_pos rfl] at hnext hprev
    exact ⟨hnext, hprev⟩

/-- **A legal run keeps every list in order.** -/
theorem run (h : Holds s seqs) (calls : List (ListCall ι)) (hlegal : LegalCalls seqs calls) :
    Holds (s.run calls) (calls.foldl ListCall.expected seqs) := by
  induction calls generalizing s seqs with
  | nil => exact h
  | cons call calls ih => exact ih (h.step hlegal.1) hlegal.2

end Holds

/-- **Each list is a sequence, and no list can tell that there are others.**  After every
legal run from empty lists over any memory, each list reads forwards as the sequence that
its calls make and backwards as its reverse, with its length as its size; and the next
legal call disturbs no other list and no node outside its own, and leaves a node it
removes with null links. -/
theorem intrusiveLists_refine_sequences (heap : H) (calls : List (ListCall ι))
    (hlegal : LegalCalls (fun _ => []) calls) :
    let s : Lists H ι := run { heap := heap, lists := fun _ => {} } calls
    let seqs : ι → List ℕ := calls.foldl ListCall.expected fun _ => []
    Refines s seqs ∧ ∀ call : ListCall ι, call.Legal seqs → Local s seqs call := by
  have h := (Holds.init (ι := ι) heap).run calls hlegal
  exact ⟨h.refines, fun call hcall => h.isLocal hcall⟩

/-- Memory that holds nothing but links. -/
structure Links where
  prev : ℕ → Option ℕ := fun _ => none
  next : ℕ → Option ℕ := fun _ => none

instance : NodeHeap Links where
  prev h := h.prev
  next h := h.next
  setPrev h i v := { h with prev := Function.update h.prev i v }
  setNext h i v := { h with next := Function.update h.next i v }
  prev_setPrev _ _ _ _ := Function.update_apply _ _ _ _
  next_setPrev _ _ _ _ := rfl
  prev_setNext _ _ _ _ := rfl
  next_setNext _ _ _ _ := Function.update_apply _ _ _ _

/-- Two lists take turns; the node in the middle of the first moves to the second. -/
theorem intrusiveLists_refine_sequences_two :
    let calls : List (ListCall Bool) := [.pushBack true 1, .pushBack false 7, .pushFront true 2,
      .pushBack true 3, .remove true 1, .pushFront false 1]
    let s : Lists Links Bool := run { heap := {}, lists := fun _ => {} } calls
    s.forward true 2 = some [2, 3] ∧ s.backward false 2 = some [7, 1] ∧
      Local s (calls.foldl ListCall.expected fun _ => []) (.remove false 7) := by
  intro calls s
  have hlegal : LegalCalls (fun _ => []) calls := by
    refine ⟨?_, ?_, ?_, ?_, ?_, ?_, trivial⟩
    · rintro (_ | _) <;> decide
    · rintro (_ | _) <;> decide
    · rintro (_ | _) <;> decide
    · rintro (_ | _) <;> decide
    · change _ ∈ _
      decide
    · rintro (_ | _) <;> decide
  have h := intrusiveLists_refine_sequences (H := Links) {} calls hlegal
  refine ⟨h.1.forward_eq true 2 (by decide), h.1.backward_eq false 2 (by decide), ?_⟩
  refine h.2 (.remove false 7) ?_
  change _ ∈ _
  decide

end Lists
end Liquibook
