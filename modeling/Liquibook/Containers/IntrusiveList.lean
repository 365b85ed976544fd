import Liquibook.Lib.Threads

/-!
# The intrusive list

`containers/intrusive_list.hpp`: a doubly linked list that owns no nodes.  The
nodes are the objects themselves, living in memory shared with everything else,
and the list only holds a head, a tail and a count.  A pointer is the index of
the object in its memory, `none` is the null pointer, and the memory is any type
with readable and writable `prev` and `next` members — the source's
`IntrusiveListNode` concept.

## Main definitions

* `NodeHeap` — memory whose objects carry `prev` and `next` members.
* `IntrusiveList`, `pushBack`, `pushFront`, `remove` — the list of the source.
* `Represents h l xs` — in memory `h` the list `l` holds the nodes `xs`.

## Main results

* `Represents.pushBack`, `Represents.pushFront`, `Represents.remove` — the
  operations refine the operations on sequences.
* `Represents.frame` — a list keeps its contents while the links of its own
  nodes are untouched.
* `pushBack_preserves`, `remove_preserves` — what every write at a node of the
  list preserves, the whole operation preserves.
-/

namespace Liquibook

open Lib

/-- Memory whose objects have public `prev` and `next` members: the source's
concept `IntrusiveListNode`, over the memory the objects live in. -/
class NodeHeap (H : Type) where
  /-- `node->prev` -/
  prev : H → ℕ → Option ℕ
  /-- `node->next` -/
  next : H → ℕ → Option ℕ
  /-- `node->prev = value` -/
  setPrev : H → ℕ → Option ℕ → H
  /-- `node->next = value` -/
  setNext : H → ℕ → Option ℕ → H
  prev_setPrev : ∀ h i v j, prev (setPrev h i v) j = if j = i then v else prev h j
  next_setPrev : ∀ h i v j, next (setPrev h i v) j = next h j
  prev_setNext : ∀ h i v j, prev (setNext h i v) j = prev h j
  next_setNext : ∀ h i v j, next (setNext h i v) j = if j = i then v else next h j

attribute [simp] NodeHeap.prev_setPrev NodeHeap.next_setPrev NodeHeap.prev_setNext
  NodeHeap.next_setNext

/-- `IntrusiveList<T>`: the head, the tail and the number of nodes. -/
structure IntrusiveList where
  head : Option ℕ := none
  tail : Option ℕ := none
  size : ℕ := 0
  deriving DecidableEq, Repr, Inhabited

namespace IntrusiveList

open NodeHeap

variable {H : Type} [NodeHeap H]

/-- `IntrusiveList::empty` -/
def empty (l : IntrusiveList) : Bool := l.head.isNone

/-- `IntrusiveList::push_back` -/
def pushBack (h : H) (l : IntrusiveList) (node : ℕ) : H × IntrusiveList :=
  let h := setPrev h node l.tail
  let h := setNext h node none
  match l.tail with
  | some t => (setNext h t (some node), { l with tail := some node, size := l.size + 1 })
  | none => (h, { l with head := some node, tail := some node, size := l.size + 1 })

/-- `IntrusiveList::push_front` -/
def pushFront (h : H) (l : IntrusiveList) (node : ℕ) : H × IntrusiveList :=
  let h := setNext h node l.head
  let h := setPrev h node none
  match l.head with
  | some t => (setPrev h t (some node), { l with head := some node, size := l.size + 1 })
  | none => (h, { l with head := some node, tail := some node, size := l.size + 1 })

/-- The first half of `IntrusiveList::remove`: the predecessor, or the head of
the list, skips the node. -/
def unlinkPrev (h : H) (l : IntrusiveList) (node : ℕ) : H × IntrusiveList :=
  match prev h node with
  | some p => (setNext h p (next h node), l)
  | none => (h, { l with head := next h node })

/-- The second half of `IntrusiveList::remove`: the successor, or the tail of
the list, skips the node. -/
def unlinkNext (h : H) (l : IntrusiveList) (node : ℕ) : H × IntrusiveList :=
  match next h node with
  | some n => (setPrev h n (prev h node), l)
  | none => (h, { l with tail := prev h node })

/-- `IntrusiveList::remove` -/
def remove (h : H) (l : IntrusiveList) (node : ℕ) : H × IntrusiveList :=
  let (h, l) := unlinkPrev h l node
  let (h, l) := unlinkNext h l node
  let h := setPrev h node none
  let h := setNext h node none
  (h, { l with size := l.size - 1 })

/-- Iteration from `begin()` to `end()`, for at most `fuel` nodes. -/
def nodes (h : H) (l : IntrusiveList) (fuel : ℕ) : Option (List ℕ) := walk (next h) fuel l.head

/-- In memory `h` the list `l` holds the nodes `xs`, from head to tail. -/
structure Represents (h : H) (l : IntrusiveList) (xs : List ℕ) : Prop where
  threads : Threads (next h) (prev h) xs
  head_eq : l.head = xs.head?
  tail_eq : l.tail = xs.getLast?
  size_eq : l.size = xs.length

namespace Represents

variable {h h' : H} {l : IntrusiveList} {xs : List ℕ} {node : ℕ}

theorem nil (h : H) : Represents h {} [] := ⟨Threads.nil _ _, rfl, rfl, rfl⟩

/-- A list keeps its contents while the links of its own nodes are untouched. -/
theorem frame (hr : Represents h l xs) (hn : ∀ j ∈ xs, next h' j = next h j)
    (hp : ∀ j ∈ xs, prev h' j = prev h j) : Represents h' l xs :=
  ⟨hr.threads.congr hn hp, hr.head_eq, hr.tail_eq, hr.size_eq⟩

theorem empty_iff (hr : Represents h l xs) : l.empty = true ↔ xs = [] := by
  rw [empty, hr.head_eq]
  cases xs <;> simp

/-- Iterating over the list visits its nodes in order and ends. -/
theorem nodes_eq (hr : Represents h l xs) {fuel : ℕ} (hf : xs.length ≤ fuel) :
    l.nodes h fuel = some xs := by
  rw [nodes, hr.head_eq]
  exact hr.threads.walk_eq hf

end Represents

/-! ### The operations refine the operations on sequences -/

namespace Represents

variable {h : H} {l : IntrusiveList} {xs ys : List ℕ} {node : ℕ}

/-- **`push_back` appends.** -/
theorem pushBack (hr : Represents h l xs) (hnode : node ∉ xs) :
    Represents (l.pushBack h node).1 (l.pushBack h node).2 (xs ++ [node]) := by
  obtain ⟨hthr, hhead, htail, hsize⟩ := hr
  rcases List.eq_nil_or_concat xs with rfl | ⟨as, t, rfl⟩
  · have ht : l.tail = none := by simpa using htail
    refine ⟨?_, ?_, ?_, ?_⟩
    · refine hthr.append_singleton hnode ?_ ?_ ?_ ?_ ?_ <;> simp [IntrusiveList.pushBack, ht]
    · simp [IntrusiveList.pushBack, ht]
    · simp [IntrusiveList.pushBack, ht]
    · simpa [IntrusiveList.pushBack, ht] using hsize
  · rw [List.concat_eq_append] at *
    have ht : l.tail = some t := by simpa using htail
    have hnt : node ≠ t := fun e => hnode (by simp [e])
    have hlast : (as ++ [t]).getLast? = some t := by simp
    refine ⟨?_, ?_, ?_, ?_⟩
    · refine hthr.append_singleton hnode ?_ ?_ ?_ ?_ ?_
      · simp [IntrusiveList.pushBack, ht, hnt]
      · simp [IntrusiveList.pushBack, ht]
      · intro u hu
        have hut : u = t := by simpa using hu.symm
        simp [IntrusiveList.pushBack, ht, hut]
      · intro y hy hne
        have hyt : y ≠ t := fun e => hne (by rw [e, hlast])
        have hyn : y ≠ node := fun e => hnode (e ▸ hy)
        simp [IntrusiveList.pushBack, ht, hyt, hyn]
      · intro y hy
        have hyn : y ≠ node := fun e => hnode (e ▸ hy)
        simp [IntrusiveList.pushBack, ht, hyn]
    · rw [show (l.pushBack h node).2.head = l.head by simp [IntrusiveList.pushBack, ht], hhead]
      cases as <;> rfl
    · simp [IntrusiveList.pushBack, ht]
    · simpa [IntrusiveList.pushBack, ht] using hsize

/-- **`push_front` prepends.** -/
theorem pushFront (hr : Represents h l xs) (hnode : node ∉ xs) :
    Represents (l.pushFront h node).1 (l.pushFront h node).2 (node :: xs) := by
  obtain ⟨hthr, hhead, htail, hsize⟩ := hr
  cases xs with
  | nil =>
    have hh : l.head = none := by simpa using hhead
    refine ⟨?_, ?_, ?_, ?_⟩
    · refine hthr.cons hnode ?_ ?_ ?_ ?_ ?_ <;> simp [IntrusiveList.pushFront, hh]
    · simp [IntrusiveList.pushFront, hh]
    · simp [IntrusiveList.pushFront, hh]
    · simpa [IntrusiveList.pushFront, hh] using hsize
  | cons t bs =>
    have hh : l.head = some t := by simpa using hhead
    have hnt : node ≠ t := fun e => hnode (by simp [e])
    refine ⟨?_, ?_, ?_, ?_⟩
    · refine hthr.cons hnode ?_ ?_ ?_ ?_ ?_
      · simp [IntrusiveList.pushFront, hh]
      · simp [IntrusiveList.pushFront, hh, hnt]
      · intro u hu
        have hut : u = t := by simpa using hu.symm
        simp [IntrusiveList.pushFront, hh, hut]
      · intro y hy hne
        have hyt : y ≠ t := fun e => hne (by rw [e]; rfl)
        have hyn : y ≠ node := fun e => hnode (e ▸ hy)
        simp [IntrusiveList.pushFront, hh, hyt, hyn]
      · intro y hy
        have hyn : y ≠ node := fun e => hnode (e ▸ hy)
        simp [IntrusiveList.pushFront, hh, hyn]
    · simp [IntrusiveList.pushFront, hh]
    · rw [show (l.pushFront h node).2.tail = l.tail by simp [IntrusiveList.pushFront, hh], htail,
        List.getLast?_cons_cons]
    · simpa [IntrusiveList.pushFront, hh] using hsize

end Represents

/-- The links `remove` leaves behind: the neighbours of the node point past it,
the node itself points nowhere. -/
theorem links_remove (h : H) (l : IntrusiveList) (node j : ℕ) (hp : prev h node ≠ some node)
    (hn : next h node ≠ some node) :
    next (l.remove h node).1 j =
        (if j = node then none else if prev h node = some j then next h node else next h j) ∧
      prev (l.remove h node).1 j =
        (if j = node then none else if next h node = some j then prev h node else prev h j) := by
  cases hpe : prev h node with
  | none =>
    cases hne : next h node with
    | none => by_cases hj : j = node <;> simp [remove, unlinkPrev, unlinkNext, hpe, hne, hj]
    | some n =>
      by_cases hj : j = node
      · simp [remove, unlinkPrev, unlinkNext, hpe, hne, hj]
      · by_cases hjn : j = n
        · simp [remove, unlinkPrev, unlinkNext, hpe, hne, hjn]
        · simp [remove, unlinkPrev, unlinkNext, hpe, hne, hj, hjn, Ne.symm hjn]
  | some p =>
    have hpn : node ≠ p := fun e => hp (by rw [hpe, e])
    cases hne : next h node with
    | none =>
      by_cases hj : j = node
      · simp [remove, unlinkPrev, unlinkNext, hpe, hne, hj, hpn]
      · by_cases hjp : j = p
        · simp [remove, unlinkPrev, unlinkNext, hpe, hne, hjp, hpn]
        · simp [remove, unlinkPrev, unlinkNext, hpe, hne, hj, hjp, Ne.symm hjp, hpn]
    | some n =>
      have hnn : node ≠ n := fun e => hn (by rw [hne, e])
      by_cases hj : j = node
      · simp [remove, unlinkPrev, unlinkNext, hpe, hne, hj, hpn]
      · by_cases hjp : j = p <;> by_cases hjn : j = n <;>
          simp [remove, unlinkPrev, unlinkNext, hpe, hne, hj, hjp, hjn, hpn, eq_comm]

/-- The list header `remove` leaves behind. -/
theorem header_remove (h : H) (l : IntrusiveList) (node : ℕ) (hp : prev h node ≠ some node) :
    (l.remove h node).2 =
      { head := if prev h node = none then next h node else l.head
        tail := if next h node = none then prev h node else l.tail
        size := l.size - 1 } := by
  cases hpe : prev h node with
  | none => cases hne : next h node <;> simp [remove, unlinkPrev, unlinkNext, hpe, hne]
  | some p =>
    have hpn : node ≠ p := fun e => hp (by rw [hpe, e])
    cases hne : next h node <;> simp [remove, unlinkPrev, unlinkNext, hpe, hne, hpn]

namespace Represents

variable {h : H} {l : IntrusiveList} {xs ys : List ℕ} {node : ℕ}

/-- In a list without repetitions, dropping a node is closing the gap it leaves. -/
theorem filter_ne_of_nodup {as bs : List ℕ} (hnd : (as ++ node :: bs).Nodup) :
    (as ++ node :: bs).filter (· ≠ node) = as ++ bs := by
  rw [List.nodup_append, List.nodup_cons] at hnd
  obtain ⟨-, ⟨hb, -⟩, hdis⟩ := hnd
  rw [List.filter_append, List.filter_cons, if_neg (by simp)]
  congr 1
  · exact List.filter_eq_self.mpr fun a ha => by simpa using hdis a ha node List.mem_cons_self
  · exact List.filter_eq_self.mpr fun b hb' => by
      have : b ≠ node := fun e => hb (e ▸ hb')
      simpa using this

/-- A node of the list is not its own neighbour. -/
theorem links_ne_self (hr : Represents h l xs) (hnode : node ∈ xs) :
    prev h node ≠ some node ∧ next h node ≠ some node := by
  obtain ⟨as, bs, rfl⟩ := List.append_of_mem hnode
  have hnd := hr.threads.nodup
  rw [List.nodup_append, List.nodup_cons] at hnd
  obtain ⟨-, ⟨hb, -⟩, hdis⟩ := hnd
  constructor
  · rw [hr.threads.prev_eq as node bs rfl]
    exact fun e => hdis node (List.mem_of_getLast? e) node List.mem_cons_self rfl
  · rw [hr.threads.next_eq as node bs rfl]
    exact fun e => hb (List.mem_of_mem_head? e)

/-- **`remove` drops the node**, and nothing else moves. -/
theorem remove (hr : Represents h l xs) (hnode : node ∈ xs) :
    Represents (l.remove h node).1 (l.remove h node).2 (xs.filter (· ≠ node)) := by
  obtain ⟨hp, hn⟩ := hr.links_ne_self hnode
  have hlinks := fun j => links_remove h l node j hp hn
  have hhdr := header_remove h l node hp
  obtain ⟨as, bs, rfl⟩ := List.append_of_mem hnode
  have hnd := hr.threads.nodup
  rw [filter_ne_of_nodup hnd]
  have hpe := hr.threads.prev_eq as node bs rfl
  have hne := hr.threads.next_eq as node bs rfl
  have hmem : ∀ y ∈ as ++ bs, y ≠ node := by
    intro y hy
    rw [← filter_ne_of_nodup hnd, List.mem_filter] at hy
    simpa using hy.2
  refine ⟨?_, ?_, ?_, ?_⟩
  · refine hr.threads.unlink ?_ ?_
    · intro y hy
      rw [(hlinks y).1, if_neg (hmem y hy), hpe, hne]
    · intro y hy
      rw [(hlinks y).2, if_neg (hmem y hy), hpe, hne]
  · rw [hhdr, hpe, hne, hr.head_eq]
    cases as <;> simp
  · rw [hhdr, hpe, hne, hr.tail_eq]
    rcases List.eq_nil_or_concat bs with rfl | ⟨cs, z, rfl⟩
    · simp
    · simp [List.concat_eq_append, List.getLast?_cons]
  · have hlen := hr.size_eq
    simp only [List.length_append, List.length_cons] at hlen
    simp only [hhdr, List.length_append]
    omega

/-- `remove` leaves the links of every node outside the list alone. -/
theorem remove_outside (hr : Represents h l xs) (hnode : node ∈ xs) {j : ℕ} (hj : j ∉ xs) :
    next (l.remove h node).1 j = next h j ∧ prev (l.remove h node).1 j = prev h j := by
  obtain ⟨hp, hn⟩ := hr.links_ne_self hnode
  have hjn : j ≠ node := fun e => hj (e ▸ hnode)
  have hjp : prev h node ≠ some j := fun e => hj (hr.threads.mem_of_prev hnode e)
  have hjq : next h node ≠ some j := fun e => hj (hr.threads.mem_of_next hnode e)
  obtain ⟨h1, h2⟩ := links_remove h l node j hp hn
  rw [h1, h2, if_neg hjn, if_neg hjn, if_neg hjp, if_neg hjq]
  exact ⟨rfl, rfl⟩

/-- `push_back` leaves the links of every other node outside the list alone. -/
theorem pushBack_outside (hr : Represents h l xs) {j : ℕ} (hj : j ∉ xs) (hjn : j ≠ node) :
    next (l.pushBack h node).1 j = next h j ∧ prev (l.pushBack h node).1 j = prev h j := by
  have hjt : ∀ t, l.tail = some t → j ≠ t := by
    intro t ht e
    rw [hr.tail_eq] at ht
    exact hj (e ▸ List.mem_of_getLast? ht)
  cases ht : l.tail with
  | none => simp [IntrusiveList.pushBack, ht, hjn]
  | some t => simp [IntrusiveList.pushBack, ht, hjn, hjt t ht]

/-- `push_front` leaves the links of every other node outside the list alone. -/
theorem pushFront_outside (hr : Represents h l xs) {j : ℕ} (hj : j ∉ xs) (hjn : j ≠ node) :
    next (l.pushFront h node).1 j = next h j ∧ prev (l.pushFront h node).1 j = prev h j := by
  have hjt : ∀ t, l.head = some t → j ≠ t := by
    intro t ht e
    rw [hr.head_eq] at ht
    exact hj (e ▸ List.mem_of_mem_head? ht)
  cases ht : l.head with
  | none => simp [IntrusiveList.pushFront, ht, hjn]
  | some t => simp [IntrusiveList.pushFront, ht, hjn, hjt t ht]

/-- What every link write at the pushed node and at a node of the list
preserves, `push_back` preserves. -/
theorem pushBack_preserves (hr : Represents h l xs) {P : H → Prop}
    (hset : ∀ h i v, i = node ∨ i ∈ xs → P h → P (setPrev h i v) ∧ P (setNext h i v))
    (hP : P h) : P (l.pushBack h node).1 := by
  have h1 := (hset h node l.tail (Or.inl rfl) hP).1
  have h2 := (hset _ node none (Or.inl rfl) h1).2
  cases ht : l.tail with
  | none => simpa [IntrusiveList.pushBack, ht] using h2
  | some t =>
    have htx : t ∈ xs := List.mem_of_getLast? (by rw [← hr.tail_eq, ht])
    simpa [IntrusiveList.pushBack, ht] using (hset _ t (some node) (Or.inr htx) h2).2

/-- What every link write at a node of the list preserves, `remove` preserves. -/
theorem remove_preserves (hr : Represents h l xs) (hnode : node ∈ xs) {P : H → Prop}
    (hset : ∀ h i v, i ∈ xs → P h → P (setPrev h i v) ∧ P (setNext h i v))
    (hP : P h) : P (l.remove h node).1 := by
  have hfirst : P (l.unlinkPrev h node).1 := by
    cases hpe : prev h node with
    | none => simpa [unlinkPrev, hpe] using hP
    | some p =>
      have hpx := hr.threads.mem_of_prev hnode hpe
      simpa [unlinkPrev, hpe] using (hset h p (next h node) hpx hP).2
  -- the first half changes no forward link that the second half reads
  have hnext : next (l.unlinkPrev h node).1 node = next h node := by
    cases hpe : prev h node with
    | none => simp [unlinkPrev, hpe]
    | some p =>
      have hpn : node ≠ p := fun e => (hr.links_ne_self hnode).1 (by rw [hpe, e])
      simp [unlinkPrev, hpe, hpn]
  have hsecond : P ((l.unlinkPrev h node).2.unlinkNext (l.unlinkPrev h node).1 node).1 := by
    rw [unlinkNext, hnext]
    cases hne : next h node with
    | none => exact hfirst
    | some n => exact (hset _ n _ (hr.threads.mem_of_next hnode hne) hfirst).1
  exact (hset _ node none hnode (hset _ node none hnode hsecond).1).2

end Represents

end IntrusiveList
end Liquibook
