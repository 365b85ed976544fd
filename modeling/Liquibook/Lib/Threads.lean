import Mathlib.Data.List.Basic
import Mathlib.Data.List.Nodup

/-!
# Doubly linked sequences

Two partial functions `next` and `prev` on an arbitrary type of nodes *thread* a
list `xs` when they send each entry of `xs` to the entry after and before it.
The definition quantifies over the ways of splitting `xs` at a node, so the
forward and the backward link of a node are read off the same split and the
surgery of a doubly linked list (append, prepend, unlink) is a statement about
splits of one list rather than about pointers.

## Main definitions

* `Threads next prev xs` — the links thread the list `xs`.
* `walk next n start` — follow `next` from `start` for at most `n` nodes.

## Main results

* `Threads.append_singleton`, `Threads.cons`, `Threads.unlink` — the three
  kinds of surgery.
* `walk_of_next`, `Threads.walk_eq` — a walk with enough steps lists the nodes.
* `Threads.reverse` — the same list threaded backwards.
-/

namespace Liquibook
namespace Lib

variable {α : Type*}

/-- `next` and `prev` thread the list `xs`: no node occurs twice, and at every
split of `xs` the two links of the node in the middle are its neighbours. -/
structure Threads (next prev : α → Option α) (xs : List α) : Prop where
  /-- No node occurs twice. -/
  nodup : xs.Nodup
  /-- The forward link is the node that follows. -/
  next_eq : ∀ as x bs, xs = as ++ x :: bs → next x = bs.head?
  /-- The backward link is the node that precedes. -/
  prev_eq : ∀ as x bs, xs = as ++ x :: bs → prev x = as.getLast?

/-- Follow the forward links from `start`, for at most `n` nodes; `none` when
the walk has not reached a null link by then. -/
def walk (next : α → Option α) : ℕ → Option α → Option (List α)
  | _, none => some []
  | 0, some _ => none
  | n + 1, some x => (walk next n (next x)).map (x :: ·)

@[simp] theorem walk_none (next : α → Option α) (n : ℕ) : walk next n none = some [] := by
  cases n <;> rfl

@[simp] theorem walk_succ_some (next : α → Option α) (n : ℕ) (x : α) :
    walk next (n + 1) (some x) = (walk next n (next x)).map (x :: ·) := rfl

/-- **A walk with enough steps lists a list**, if every node leads to the one behind it. -/
theorem walk_of_next {next : α → Option α} {xs : List α}
    (h : ∀ as x bs, xs = as ++ x :: bs → next x = bs.head?) {n : ℕ} (hn : xs.length ≤ n) :
    walk next n xs.head? = some xs := by
  -- the same for every suffix of the list
  have hsuffix : ∀ (bs as : List α), xs = as ++ bs → ∀ n, bs.length ≤ n →
      walk next n bs.head? = some bs := by
    intro bs
    induction bs with
    | nil => intro as _ n _; simp
    | cons x bs ih =>
      intro as e n hn
      cases n with
      | zero => simp at hn
      | succ n =>
        rw [List.head?_cons, walk_succ_some, h as x bs e,
          ih (as ++ [x]) (by simp [e]) n (by simpa using hn)]
        rfl
  exact hsuffix xs [] rfl n hn

namespace Threads

variable {next prev next' prev' : α → Option α} {xs as bs : List α} {x y : α}

theorem nil (next prev : α → Option α) : Threads next prev [] where
  nodup := List.nodup_nil
  next_eq := by intro as x bs h; simp at h
  prev_eq := by intro as x bs h; simp at h

/-- Threading depends on the links of the listed nodes only. -/
theorem congr (h : Threads next prev xs) (hn : ∀ x ∈ xs, next' x = next x)
    (hp : ∀ x ∈ xs, prev' x = prev x) : Threads next' prev' xs where
  nodup := h.nodup
  next_eq := by
    intro as x bs e
    rw [hn x (by simp [e]), h.next_eq as x bs e]
  prev_eq := by
    intro as x bs e
    rw [hp x (by simp [e]), h.prev_eq as x bs e]

/-- A link of a listed node leads to a listed node. -/
theorem mem_of_next (h : Threads next prev xs) (hx : x ∈ xs) (hy : next x = some y) :
    y ∈ xs := by
  obtain ⟨as, bs, rfl⟩ := List.append_of_mem hx
  rw [h.next_eq as x bs rfl] at hy
  exact List.mem_append_right _ (List.mem_cons_of_mem _ (List.mem_of_mem_head? hy))

theorem mem_of_prev (h : Threads next prev xs) (hx : x ∈ xs) (hy : prev x = some y) :
    y ∈ xs := by
  obtain ⟨as, bs, rfl⟩ := List.append_of_mem hx
  rw [h.prev_eq as x bs rfl] at hy
  exact List.mem_append_left _ (List.mem_of_getLast? hy)

/-- **Appending a node.**  The new node points back to the old last node, which
points forward to it; every other link of the list stays. -/
theorem append_singleton (h : Threads next prev xs) (hx : x ∉ xs)
    (hnx : next' x = none) (hpx : prev' x = xs.getLast?)
    (hlast : ∀ t, xs.getLast? = some t → next' t = some x)
    (hn : ∀ y ∈ xs, xs.getLast? ≠ some y → next' y = next y)
    (hp : ∀ y ∈ xs, prev' y = prev y) : Threads next' prev' (xs ++ [x]) := by
  have hsplit : ∀ as y bs, xs ++ [x] = as ++ y :: bs →
      (bs = [] ∧ as = xs ∧ y = x) ∨ ∃ bs', bs = bs' ++ [x] ∧ xs = as ++ y :: bs' := by
    intro as y bs e
    rcases List.eq_nil_or_concat bs with rfl | ⟨bs', z, rfl⟩
    · obtain ⟨h1, h2⟩ := List.append_inj' e rfl
      exact Or.inl ⟨rfl, h1.symm, by simpa using h2.symm⟩
    · rw [List.concat_eq_append, ← List.cons_append, ← List.append_assoc] at e
      obtain ⟨h1, h2⟩ := List.append_inj' e rfl
      have hz : z = x := by simpa using h2.symm
      exact Or.inr ⟨bs', by rw [List.concat_eq_append, hz], h1⟩
  refine ⟨?_, ?_, ?_⟩
  · rw [List.nodup_append]
    refine ⟨h.nodup, List.nodup_singleton x, ?_⟩
    intro a ha b hb hab
    rw [List.mem_singleton] at hb
    exact hx (hb ▸ hab ▸ ha)
  · intro as y bs e
    rcases hsplit as y bs e with ⟨rfl, -, rfl⟩ | ⟨bs', rfl, exs⟩
    · simpa using hnx
    · rcases List.eq_nil_or_concat bs' with rfl | ⟨cs, z, rfl⟩
      · rw [hlast y (by simp [exs])]
        rfl
      · have hyz : xs.getLast? ≠ some y := by
          intro hl
          have hnd := h.nodup
          rw [exs, List.nodup_append, List.nodup_cons] at hnd
          rw [exs] at hl
          simp only [List.concat_eq_append, List.getLast?_append, List.getLast?_cons,
            List.getLast?_nil, Option.getD_none, Option.some_or, Option.some.injEq,
            Option.getD_some] at hl
          exact hnd.2.1.1 (by simp [hl])
        rw [hn y (by simp [exs]) hyz, h.next_eq as y _ exs, List.head?_append]
        simp
  · intro as y bs e
    rcases hsplit as y bs e with ⟨-, rfl, rfl⟩ | ⟨bs', -, exs⟩
    · exact hpx
    · rw [hp y (by simp [exs]), h.prev_eq as y bs' exs]

/-- **Prepending a node**, the mirror image of `append_singleton`. -/
theorem cons (h : Threads next prev xs) (hx : x ∉ xs)
    (hnx : next' x = xs.head?) (hpx : prev' x = none)
    (hfirst : ∀ t, xs.head? = some t → prev' t = some x)
    (hp : ∀ y ∈ xs, xs.head? ≠ some y → prev' y = prev y)
    (hn : ∀ y ∈ xs, next' y = next y) : Threads next' prev' (x :: xs) := by
  refine ⟨List.nodup_cons.mpr ⟨hx, h.nodup⟩, ?_, ?_⟩
  · intro as y bs e
    cases as with
    | nil =>
      obtain ⟨rfl, rfl⟩ := List.cons.inj e
      exact hnx
    | cons a as =>
      obtain ⟨-, exs⟩ := List.cons.inj e
      rw [hn y (by simp [exs]), h.next_eq as y bs exs]
  · intro as y bs e
    cases as with
    | nil =>
      obtain ⟨rfl, rfl⟩ := List.cons.inj e
      exact hpx
    | cons a as =>
      rw [List.cons_append, List.cons.injEq] at e
      obtain ⟨rfl, exs⟩ := e
      cases as with
      | nil =>
        rw [hfirst y (by simp [exs])]
        rfl
      | cons c as =>
        have hcy : xs.head? ≠ some y := by
          intro hh
          have hnd := h.nodup
          rw [exs, List.cons_append, List.nodup_cons] at hnd
          rw [exs] at hh
          simp only [List.cons_append, List.head?_cons, Option.some.injEq] at hh
          exact hnd.1 (by simp [hh])
        rw [hp y (by simp [exs]) hcy, h.prev_eq _ y bs exs, List.getLast?_cons_cons]

/-- **Unlinking a node.**  Its two neighbours are made to point at each other;
every other link of the remaining list stays. -/
theorem unlink [DecidableEq α] (h : Threads next prev (as ++ x :: bs))
    (hn : ∀ y ∈ as ++ bs, next' y = if as.getLast? = some y then bs.head? else next y)
    (hp : ∀ y ∈ as ++ bs, prev' y = if bs.head? = some y then as.getLast? else prev y) :
    Threads next' prev' (as ++ bs) := by
  have hnd := h.nodup
  rw [List.nodup_append, List.nodup_cons] at hnd
  obtain ⟨hnda, ⟨hxb, hndb⟩, hdis⟩ := hnd
  have hdis' : ∀ y ∈ as, y ∉ bs := fun y hy hyb => hdis y hy y (List.mem_cons_of_mem _ hyb) rfl
  -- a split of `as ++ bs` falls inside `as` or inside `bs`
  have hsplit : ∀ cs y ds, as ++ bs = cs ++ y :: ds →
      (∃ es, as = cs ++ y :: es ∧ ds = es ++ bs) ∨ ∃ es, bs = es ++ y :: ds ∧ cs = as ++ es := by
    intro cs y ds e
    rcases List.append_eq_append_iff.mp e with ⟨es, hcs, hbs⟩ | ⟨es, has, hyd⟩
    · exact Or.inr ⟨es, hbs, hcs⟩
    · cases es with
      | nil => exact Or.inr ⟨[], by simpa using hyd.symm, by simpa using has.symm⟩
      | cons e es =>
        obtain ⟨rfl, rfl⟩ := List.cons.inj hyd
        exact Or.inl ⟨es, has, rfl⟩
  refine ⟨?_, ?_, ?_⟩
  · rw [List.nodup_append]
    exact ⟨hnda, hndb, fun a ha b hb hab => hdis' a ha (hab ▸ hb)⟩
  · intro cs y ds e
    have hy : y ∈ as ++ bs := by simp [e]
    rw [hn y hy]
    rcases hsplit cs y ds e with ⟨es, has, rfl⟩ | ⟨es, hbs, rfl⟩
    · cases es with
      | nil => rw [if_pos (by simp [has])]; rfl
      | cons z es =>
        have hlast : as.getLast? ≠ some y := by
          intro hl
          rw [has, List.getLast?_append] at hl
          rw [List.getLast?_cons_cons, List.getLast?_cons, Option.some_or, Option.some.injEq] at hl
          rw [has, List.nodup_append, List.nodup_cons] at hnda
          exact hnda.2.1.1 (hl ▸ List.mem_of_getLast? (by rw [List.getLast?_cons]))
        rw [if_neg hlast, h.next_eq cs y (z :: es ++ x :: bs) (by simp [has])]
        rfl
    · have hlast : as.getLast? ≠ some y := by
        intro hl
        exact hdis' y (List.mem_of_getLast? hl) (by simp [hbs])
      rw [if_neg hlast, h.next_eq (as ++ x :: es) y ds (by simp [hbs])]
  · intro cs y ds e
    have hy : y ∈ as ++ bs := by simp [e]
    rw [hp y hy]
    rcases hsplit cs y ds e with ⟨es, has, -⟩ | ⟨es, hbs, rfl⟩
    · have hhead : bs.head? ≠ some y := by
        intro hh
        exact hdis' y (by simp [has]) (List.mem_of_mem_head? hh)
      rw [if_neg hhead, h.prev_eq cs y (es ++ x :: bs) (by simp [has])]
    · cases es with
      | nil => rw [if_pos (by simp [hbs])]; simp
      | cons z es =>
        have hhead : bs.head? ≠ some y := by
          intro hh
          rw [hbs] at hh hndb
          simp only [List.cons_append, List.head?_cons, Option.some.injEq] at hh
          rw [List.cons_append, List.nodup_cons] at hndb
          exact hndb.1 (by simp [hh])
        rw [if_neg hhead, h.prev_eq (as ++ x :: z :: es) y ds (by simp [hbs])]
        simp [List.getLast?_append, List.getLast?_cons]

/-- Backwards, the two links change places. -/
theorem reverse (h : Threads next prev xs) : Threads prev next xs.reverse := by
  have hsplit : ∀ as x bs, xs.reverse = as ++ x :: bs → xs = bs.reverse ++ x :: as.reverse := by
    intro as x bs e
    rw [← List.reverse_reverse xs, e]
    simp
  refine ⟨List.nodup_reverse.mpr h.nodup, ?_, ?_⟩
  · intro as x bs e
    rw [h.prev_eq _ x _ (hsplit as x bs e), List.getLast?_reverse]
  · intro as x bs e
    rw [h.next_eq _ x _ (hsplit as x bs e), List.head?_reverse]

/-- **A walk with enough steps lists the threaded nodes**, in order. -/
theorem walk_eq (h : Threads next prev xs) {n : ℕ} (hn : xs.length ≤ n) :
    walk next n xs.head? = some xs := walk_of_next h.next_eq hn

end Threads

end Lib
end Liquibook
