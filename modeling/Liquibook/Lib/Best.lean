import Mathlib.Data.List.Basic
import Mathlib.Data.List.Sort
import Mathlib.Data.List.Dedup

/-!
# The best element under a ranking

A ranking is a strict linear order read as "is better than".  `IsBest better P r`
says that `r` is the best element satisfying `P`, or that nothing satisfies `P`.
The search loops that look for such an element — a scan that stops at the first
hit, a fold that keeps the best so far, the better of two candidates — are
compared through this one relation, which determines its result.

## Main definitions

* `Ranking better` — `better` is a strict linear order.
* `IsBest better P r` — `r` is the best element satisfying `P`, if any.
* `improve better` — one step of the loop that keeps the best so far.
* `rank better xs` — the elements of `xs`, best first and without repetitions.

## Main results

* `IsBest.unique` — there is at most one such result.
* `isBest_find?`, `isBest_foldl_improve`, `IsBest.or` — the three search loops.
* `pairwise_rank`, `mem_rank`, `rank_congr` — the ranked list, and that its members
  determine it.
* `filter_split` — what stands before and behind an element of it.
-/

namespace Liquibook
namespace Lib

variable {α β : Type*}

/-- `better` is a strict linear order. -/
structure Ranking (better : α → α → Prop) : Prop where
  irrefl : ∀ a, ¬ better a a
  trans : ∀ a b c, better a b → better b c → better a c
  connected : ∀ a b, ¬ better a b → ¬ better b a → a = b

namespace Ranking

variable {better : α → α → Prop} {a b c : α}

theorem asymm (h : Ranking better) (hab : better a b) : ¬ better b a :=
  fun hba => h.irrefl a (h.trans a b a hab hba)

/-- What is better than something is better than whatever that is no worse than. -/
theorem better_of_better_of_not (h : Ranking better) (hab : better a b) (hcb : ¬ better c b) :
    better a c := by
  by_cases hbc : better b c
  · exact h.trans a b c hab hbc
  · exact h.connected b c hbc hcb ▸ hab

theorem not_better_trans (h : Ranking better) (hab : ¬ better a b) (hbc : ¬ better b c) :
    ¬ better a c :=
  fun hac => hab (h.better_of_better_of_not hac hbc)

end Ranking

/-- `r` is the best element satisfying `P`; `none` when nothing satisfies it. -/
def IsBest (better : α → α → Prop) (P : α → Prop) : Option α → Prop
  | none => ∀ a, ¬ P a
  | some a => P a ∧ ∀ b, P b → ¬ better b a

namespace IsBest

variable {better : α → α → Prop} {P Q : α → Prop} {r s : Option α}

theorem unique (hr : Ranking better) (h : IsBest better P r) (h' : IsBest better P s) : r = s := by
  cases r with
  | none =>
    cases s with
    | none => rfl
    | some b => exact absurd h'.1 (h b)
  | some a =>
    cases s with
    | none => exact absurd h.1 (h' a)
    | some b => rw [hr.connected a b (h'.2 a h.1) (h.2 b h'.1)]

theorem congr (h : IsBest better P r) (hPQ : ∀ a, P a ↔ Q a) : IsBest better Q r := by
  cases r with
  | none => exact fun a ha => h a ((hPQ a).mpr ha)
  | some a => exact ⟨(hPQ a).mp h.1, fun b hb => h.2 b ((hPQ b).mpr hb)⟩

/-- The better of two candidates is the best of both kinds. -/
theorem or (hr : Ranking better) {a b : α} (ha : IsBest better P (some a))
    (hb : IsBest better Q (some b)) [Decidable (better b a)] :
    IsBest better (fun c => P c ∨ Q c) (some (if better b a then b else a)) := by
  split
  · next hba =>
    refine ⟨Or.inr hb.1, ?_⟩
    rintro c (hc | hc)
    · exact fun hcb => ha.2 c hc (hr.trans c b a hcb hba)
    · exact hb.2 c hc
  · next hba =>
    refine ⟨Or.inl ha.1, ?_⟩
    rintro c (hc | hc)
    · exact ha.2 c hc
    · exact hr.not_better_trans (hb.2 c hc) hba

theorem or_none (ha : IsBest better P r) (hb : IsBest better Q none) :
    IsBest better (fun c => P c ∨ Q c) r :=
  ha.congr fun c => ⟨Or.inl, fun h => h.resolve_right (hb c)⟩

theorem none_or (ha : IsBest better P none) (hb : IsBest better Q r) :
    IsBest better (fun c => P c ∨ Q c) r :=
  hb.congr fun c => ⟨Or.inr, fun h => h.resolve_left (ha c)⟩

end IsBest

/-- One step of the loop that keeps the best element seen so far. -/
def improve (better : α → α → Prop) [DecidableRel better] (best : Option α) (a : α) : Option α :=
  match best with
  | none => some a
  | some b => if better a b then some a else some b

/-- A step of the loop finds the best of one more element. -/
theorem isBest_improve {better : α → α → Prop} [DecidableRel better] (hr : Ranking better)
    {P : α → Prop} {best : Option α} (h : IsBest better P best) (a : α) :
    IsBest better (fun c => P c ∨ c = a) (improve better best a) := by
  have ha : IsBest better (fun c => c = a) (some a) :=
    ⟨rfl, fun c hc => hc ▸ hr.irrefl a⟩
  cases best with
  | none => exact h.none_or ha
  | some b =>
    have := h.or hr ha
    rw [improve]
    split <;> simp_all

/-- **The loop that keeps the best so far** finds the best of the list. -/
theorem isBest_foldl_improve {better : α → α → Prop} [DecidableRel better] (hr : Ranking better) :
    ∀ (xs : List α) (P : α → Prop) (best : Option α), IsBest better P best →
      IsBest better (fun c => P c ∨ c ∈ xs) (xs.foldl (improve better) best) := by
  intro xs
  induction xs with
  | nil => intro P best h; simpa using h
  | cons a xs ih =>
    intro P best h
    refine (ih _ _ (isBest_improve hr h a)).congr fun c => ?_
    simp only [List.mem_cons, or_assoc]

/-- **A scan that stops at the first hit** finds the best, when the list is
scanned in an order in which no hit is better than an earlier one. -/
theorem isBest_find? {better : β → β → Prop} (hr : Ranking better) {p : α → Bool} (g : α → β) :
    ∀ {xs : List α}, xs.Pairwise (fun i j => p i → p j → ¬ better (g j) (g i)) →
      IsBest better (fun b => ∃ i ∈ xs, p i ∧ g i = b) ((xs.find? p).map g) := by
  intro xs
  induction xs with
  | nil => intro _ b hb; simp at hb
  | cons i xs ih =>
    intro hpw
    rw [List.pairwise_cons] at hpw
    rw [List.find?_cons]
    by_cases hi : p i = true
    · rw [hi]
      refine ⟨⟨i, List.mem_cons_self, hi, rfl⟩, ?_⟩
      rintro b ⟨j, hj, hpj, rfl⟩
      rcases List.mem_cons.mp hj with rfl | hj
      · exact hr.irrefl _
      · exact hpw.1 j hj hi hpj
    · rw [Bool.not_eq_true] at hi
      rw [hi]
      refine (ih hpw.2).congr fun b => ?_
      simp [hi]

/-! ### Ranked lists -/

section Rank

variable [DecidableEq α] {better : α → α → Prop} [DecidableRel better]

/-- The elements of a list, best first and without repetitions. -/
def rank (better : α → α → Prop) [DecidableRel better] (xs : List α) : List α :=
  xs.dedup.insertionSort fun a b => ¬ better b a

theorem mem_rank {xs : List α} {a : α} : a ∈ rank better xs ↔ a ∈ xs := by
  rw [rank, (List.perm_insertionSort _ _).mem_iff, List.mem_dedup]

theorem nodup_rank (better : α → α → Prop) [DecidableRel better] (xs : List α) :
    (rank better xs).Nodup :=
  (List.perm_insertionSort _ _).nodup_iff.mpr xs.nodup_dedup

/-- The ranked list is strictly worsening. -/
theorem pairwise_rank (hr : Ranking better) (xs : List α) : (rank better xs).Pairwise better := by
  have : IsTrans α fun a b => ¬ better b a := ⟨fun a b c hab hbc => hr.not_better_trans hbc hab⟩
  have : Std.Total fun a b : α => ¬ better b a := ⟨fun a b => by
    by_cases h : better b a
    · exact Or.inr (hr.asymm h)
    · exact Or.inl h⟩
  have hsorted := List.pairwise_insertionSort (fun a b : α => ¬ better b a) xs.dedup
  refine (hsorted.and (nodup_rank better xs)).imp fun {a b} h => ?_
  by_contra hab
  exact h.2 (hr.connected a b hab h.1)

omit [DecidableEq α] [DecidableRel better] in
/-- **Strictly worsening lists with the same members are equal.** -/
theorem eq_of_pairwise_better (hr : Ranking better) {xs ys : List α} (hx : xs.Pairwise better)
    (hy : ys.Pairwise better) (hmem : ∀ a, a ∈ xs ↔ a ∈ ys) : xs = ys := by
  have hnd : ∀ zs : List α, zs.Pairwise better → zs.Nodup := by
    intro zs h
    refine List.Pairwise.imp (fun {a b} hab => ?_) h
    rintro rfl
    exact hr.irrefl a hab
  refine List.Perm.eq_of_pairwise ?_ hx hy
    ((List.perm_ext_iff_of_nodup (hnd xs hx) (hnd ys hy)).mpr hmem)
  intro a b _ _ hab hba
  exact absurd hba (hr.asymm hab)

omit [DecidableEq α] [DecidableRel better] in
/-- **A strictly worsening list, split at one of its elements**: up to it are the elements
no worse, and behind it the worse ones. -/
theorem filter_split (hr : Ranking better) {xs ys : List α} {a : α} {p : α → Bool}
    (hp : ∀ b, p b = true ↔ better a b) (h : (xs ++ a :: ys).Pairwise better) :
    (xs ++ a :: ys).filter (fun b => !p b) = xs ++ [a] ∧ (xs ++ a :: ys).filter p = ys := by
  rw [List.pairwise_append, List.pairwise_cons] at h
  obtain ⟨-, ⟨hys, -⟩, hxs⟩ := h
  have hbefore : ∀ x ∈ xs, p x = false := fun x hx =>
    Bool.eq_false_iff.mpr fun e => hr.asymm (hxs x hx a List.mem_cons_self) ((hp x).mp e)
  have hself : p a = false := Bool.eq_false_iff.mpr fun e => hr.irrefl a ((hp a).mp e)
  have hbehind : ∀ y ∈ ys, p y = true := fun y hy => (hp y).mpr (hys y hy)
  constructor
  · rw [List.filter_append, List.filter_cons, hself, if_pos (by simp),
      List.filter_eq_self.mpr fun x hx => by rw [hbefore x hx]; rfl,
      List.filter_eq_nil_iff.mpr fun y hy => by rw [hbehind y hy]; simp]
  · rw [List.filter_append, List.filter_cons, hself, if_neg (by simp),
      List.filter_eq_nil_iff.mpr fun x hx => by rw [hbefore x hx]; simp,
      List.filter_eq_self.mpr fun y hy => hbehind y hy, List.nil_append]

/-- The members of a ranked list determine it. -/
theorem rank_congr (hr : Ranking better) {xs ys : List α} (h : ∀ a, a ∈ xs ↔ a ∈ ys) :
    rank better xs = rank better ys :=
  eq_of_pairwise_better hr (pairwise_rank hr xs) (pairwise_rank hr ys) fun a => by
    rw [mem_rank, mem_rank, h]

omit [DecidableEq α] [DecidableRel better] in
/-- The first of a strictly worsening list is its best member. -/
theorem isBest_head? (hr : Ranking better) {xs : List α} (h : xs.Pairwise better) :
    IsBest better (· ∈ xs) xs.head? := by
  cases xs with
  | nil => intro a ha; simp at ha
  | cons x xs =>
    rw [List.pairwise_cons] at h
    refine ⟨List.mem_cons_self, fun b hb => ?_⟩
    rcases List.mem_cons.mp hb with rfl | hb
    · exact hr.irrefl b
    · exact hr.asymm (h.1 b hb)

end Rank

end Lib
end Liquibook
