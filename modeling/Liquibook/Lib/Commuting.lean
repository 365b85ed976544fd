import Mathlib.Data.List.Basic

/-!
# Independent calls in another order

A system answers calls one by one.  Two calls are independent when neither changes the answer
to the other, and making them in either order leads to the same state.  This need only be so
in the states that an invariant allows.  Suppose that every call has a key, and that calls
with different keys are independent.  Then calls may be made in any order that keeps the
order of the calls with each key: every call is answered the same, and the last state is the
same.

## Main definitions

* `replies step s as`, `final step s as` — the answers to calls, and the last state.
* `callsOn key k as` — the calls with one key.
* `Independent step Inv allowed indep` — calls that `indep` relates are independent.

## Main results

* `Independent.front` — a call may be made before those with other keys.
* `Independent.reorder` — **only the order of the calls with each key matters.**
-/

namespace Liquibook
namespace Lib

variable {σ α β κ : Type*}

/-- The calls, each with its answer. -/
def replies (step : σ → α → β × σ) : σ → List α → List (α × β)
  | _, [] => []
  | s, a :: as => (a, (step s a).1) :: replies step (step s a).2 as

/-- The state that the calls lead to. -/
def final (step : σ → α → β × σ) (s : σ) (as : List α) : σ := as.foldl (fun s a => (step s a).2) s

/-- The calls with the key `k`, in their order. -/
def callsOn [DecidableEq κ] (key : α → κ) (k : κ) (as : List α) : List α :=
  as.filter fun a => key a = k

/-- The allowed calls keep the invariant, and under it calls that are related do not notice
each other and may change places. -/
structure Independent (step : σ → α → β × σ) (Inv : σ → Prop) (allowed : α → Prop)
    (indep : α → α → Prop) : Prop where
  symm : ∀ a b, indep a b → indep b a
  inv : ∀ s a, Inv s → allowed a → Inv (step s a).2
  reply : ∀ s a b, Inv s → allowed a → allowed b → indep a b →
    (step (step s a).2 b).1 = (step s b).1
  state : ∀ s a b, Inv s → allowed a → allowed b → indep a b →
    (step (step s a).2 b).2 = (step (step s b).2 a).2

section CallsOn

variable [DecidableEq κ] {key : α → κ} {k : κ} {a b : α} {as bs : List α}

theorem callsOn_cons_self (h : key a = k) : callsOn key k (a :: as) = a :: callsOn key k as :=
  List.filter_cons_of_pos (decide_eq_true h)

theorem callsOn_cons_of_ne (h : key a ≠ k) : callsOn key k (a :: as) = callsOn key k as :=
  List.filter_cons_of_neg fun e => h (of_decide_eq_true e)

theorem callsOn_append (as bs : List α) :
    callsOn key k (as ++ bs) = callsOn key k as ++ callsOn key k bs := List.filter_append as bs

theorem callsOn_eq_nil (h : ∀ b ∈ as, key b ≠ k) : callsOn key k as = [] :=
  List.filter_eq_nil_iff.mpr fun b hb e => h b hb (of_decide_eq_true e)

theorem callsOn_cons_congr (a : α) (h : callsOn key k as = callsOn key k bs) :
    callsOn key k (a :: as) = callsOn key k (a :: bs) := by
  by_cases ha : key a = k
  · rw [callsOn_cons_self ha, callsOn_cons_self ha, h]
  · rw [callsOn_cons_of_ne ha, callsOn_cons_of_ne ha, h]

theorem mem_callsOn_self (key : α → κ) : a ∈ callsOn key (key a) as ↔ a ∈ as := by
  rw [callsOn, List.mem_filter]
  exact and_iff_left (decide_eq_true rfl)

/-- Calls with two keys that change places. -/
theorem callsOn_swap (h : key a ≠ key b) (as : List α) :
    callsOn key k (a :: b :: as) = callsOn key k (b :: a :: as) := by
  by_cases ha : key a = k
  · have hb : key b ≠ k := fun e => h (ha.trans e.symm)
    rw [callsOn_cons_self ha, callsOn_cons_of_ne hb, callsOn_cons_of_ne hb, callsOn_cons_self ha]
  · rw [callsOn_cons_of_ne ha]
    exact (callsOn_cons_congr b (callsOn_cons_of_ne ha)).symm

/-- Lists with the same calls on each key have the same first call, but for those with other
keys that one of them may have in front of it. -/
theorem exists_front (h : ∀ k, callsOn key k (a :: as) = callsOn key k bs) :
    ∃ pre post, bs = pre ++ a :: post ∧ (∀ b ∈ pre, key b ≠ key a) ∧
      ∀ k, callsOn key k as = callsOn key k (pre ++ post) := by
  have hfirst := h (key a)
  rw [callsOn_cons_self rfl] at hfirst
  obtain ⟨pre, post, rfl, hpre, -, hpost⟩ := List.filter_eq_cons_iff.mp hfirst.symm
  have hpre' : ∀ b ∈ pre, key b ≠ key a := fun b hb e => hpre b hb (decide_eq_true e)
  refine ⟨pre, post, rfl, hpre', fun k => ?_⟩
  have hk := h k
  rw [callsOn_append] at hk ⊢
  by_cases ha : key a = k
  · subst ha
    rw [callsOn_eq_nil hpre', List.nil_append]
    exact hpost.symm
  · rwa [callsOn_cons_of_ne ha, callsOn_cons_of_ne ha] at hk

end CallsOn

namespace Independent

variable [DecidableEq κ] {key : α → κ} {step : σ → α → β × σ} {Inv : σ → Prop}
  {allowed : α → Prop} {a : α}

/-- **A call may be made before those with other keys.** -/
theorem front (h : Independent step Inv allowed fun a b => key a ≠ key b) (ha : allowed a)
    (post : List α) {pre : List α} : ∀ {s : σ}, Inv s → (∀ b ∈ pre, allowed b) →
      (∀ b ∈ pre, key b ≠ key a) →
      (∀ k, callsOn (fun x => key x.1) k (replies step s (a :: (pre ++ post))) =
        callsOn (fun x => key x.1) k (replies step s (pre ++ a :: post))) ∧
      final step s (a :: (pre ++ post)) = final step s (pre ++ a :: post) := by
  induction pre with
  | nil => exact fun _ _ _ => ⟨fun _ => rfl, rfl⟩
  | cons b pre ih =>
    intro s hs hall hne
    have hb : allowed b := hall b List.mem_cons_self
    have hba : key b ≠ key a := hne b List.mem_cons_self
    have hstate := h.state s b a hs hb ha hba
    obtain ⟨hreplies, hfinal⟩ := ih (h.inv s b hs hb)
      (fun c hc => hall c (List.mem_cons_of_mem _ hc))
      fun c hc => hne c (List.mem_cons_of_mem _ hc)
    refine ⟨fun k => ?_, ?_⟩
    · have hrest := callsOn_cons_congr (b, (step s b).1) (hreplies k)
      simp only [replies, List.cons_append] at hrest ⊢
      rw [h.reply s b a hs hb ha hba, hstate] at hrest
      rw [h.reply s a b hs ha hb (h.symm _ _ hba)]
      refine Eq.trans (callsOn_swap ?_ _) hrest
      exact hba.symm
    · simp only [final, List.cons_append, List.foldl_cons] at hfinal ⊢
      rw [← hstate]
      exact hfinal

/-- **Only the order of the calls with each key matters.** -/
theorem reorder (h : Independent step Inv allowed fun a b => key a ≠ key b) {as : List α} :
    ∀ {bs : List α} {s : σ}, (∀ k, callsOn key k as = callsOn key k bs) → Inv s →
      (∀ a ∈ as, allowed a) →
      (∀ k, callsOn (fun x => key x.1) k (replies step s as) =
        callsOn (fun x => key x.1) k (replies step s bs)) ∧
      final step s as = final step s bs := by
  induction as with
  | nil =>
    intro bs s hsame _ _
    cases bs with
    | nil => exact ⟨fun _ => rfl, rfl⟩
    | cons b bs =>
      have hb := hsame (key b)
      rw [callsOn_cons_self rfl] at hb
      cases hb
  | cons a as ih =>
    intro bs s hsame hs has
    have ha : allowed a := has a List.mem_cons_self
    obtain ⟨pre, post, rfl, hpre, hrest⟩ := exists_front hsame
    have hpost : ∀ b ∈ pre ++ post, allowed b := by
      intro b hb
      rw [← mem_callsOn_self key, ← hrest, mem_callsOn_self] at hb
      exact has b (List.mem_cons_of_mem _ hb)
    obtain ⟨hreplies, hfinal⟩ := ih hrest (h.inv s a hs ha)
      fun b hb => has b (List.mem_cons_of_mem _ hb)
    obtain ⟨hreplies', hfinal'⟩ := h.front ha post hs
      (fun b hb => hpost b (List.mem_append_left _ hb)) hpre
    refine ⟨fun k => ?_, Eq.trans hfinal hfinal'⟩
    rw [← hreplies' k]
    exact callsOn_cons_congr _ (hreplies k)

end Independent

end Lib
end Liquibook
