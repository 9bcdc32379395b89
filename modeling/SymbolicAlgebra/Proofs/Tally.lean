import SymbolicAlgebra.Proofs.Constructors
import SymbolicAlgebra.Evaluation.Tally
import Mathlib.Data.List.Perm.Lattice
import Mathlib.Data.List.Dedup
import Mathlib.Tactic.Ring

/-!
# Tallies of canonical expressions

A tally that is filled one amount after the other holds each key once, in strictly ascending order,
with the total of all amounts for it. As `Expr.compare` is antisymmetric on canonical keys, the tally
is determined by these totals.

Results:
* `mem_ofList`: the entries are the keys of the list with their totals.
* `ofList_congr`: a tally depends on the keys and their totals only.
* `filter_ofList_congr`: without the keys that cancel it depends on the totals only.
* `ofList_perm_of_nodup`: amounts for distinct keys stay as they are.
* `forall₂_of_total`: for any keys, entries with the same totals are the same up to keys that compare
  equal.
-/

namespace SymbolicAlgebra.Tally

open Expr (Canonical)

/-- Adds amounts one after the other. -/
def ofList (xs : List (Expr × Rat)) : Tally :=
  xs.foldl (fun t p => t.add p.1 p.2) empty

/-- The keys of a list of amounts. -/
abbrev keys (xs : List (Expr × Rat)) : List Expr :=
  xs.map Prod.fst

/-- The total of the amounts for `k`. -/
def total (k : Expr) (xs : List (Expr × Rat)) : Rat :=
  (xs.map fun p => if Expr.compare k p.1 = .eq then p.2 else 0).sum

/-- Strictly ascending keys. -/
abbrev Ascending (xs : List (Expr × Rat)) : Prop :=
  xs.Pairwise fun p q => Expr.compare p.1 q.1 = .lt

@[simp] theorem total_nil (k : Expr) : total k [] = 0 := rfl

@[simp] theorem total_cons (k : Expr) (p : Expr × Rat) (xs : List (Expr × Rat)) :
    total k (p :: xs) = (if Expr.compare k p.1 = .eq then p.2 else 0) + total k xs := by
  simp [total]

theorem total_append (k : Expr) (xs ys : List (Expr × Rat)) :
    total k (xs ++ ys) = total k xs + total k ys := by
  simp [total]

theorem total_perm {xs ys : List (Expr × Rat)} (h : xs.Perm ys) (k : Expr) :
    total k xs = total k ys :=
  (h.map _).sum_eq

/-! ## One addition -/

theorem total_addTo (k key : Expr) (q : Rat) : ∀ xs : List (Expr × Rat),
    total k (addTo key q xs) = (if Expr.compare k key = .eq then q else 0) + total k xs
  | [] => by rw [addTo, total_cons]
  | (l, r) :: rest => by
    rw [addTo]
    split
    · rw [total_cons]
    · rename_i heq
      rw [total_cons, total_cons, Std.TransCmp.congr_right heq]
      split <;> ring
    · rw [total_cons, total_cons, total_addTo k key q rest]
      ring

theorem mem_keys_of_addTo {k key : Expr} {q : Rat} : ∀ {xs : List (Expr × Rat)},
    k ∈ keys (addTo key q xs) → k = key ∨ k ∈ keys xs
  | [], h => by simpa [addTo] using h
  | (l, r) :: rest, h => by
    rw [addTo] at h
    split at h
    · simpa using h
    · exact Or.inr (by simpa using h)
    · simp only [keys, List.map_cons, List.mem_cons] at h ⊢
      rcases h with h | h
      · exact Or.inr (Or.inl h)
      · exact (mem_keys_of_addTo h).imp_right Or.inr

theorem mem_keys_addTo {k key : Expr} {q : Rat} (hkey : Canonical key) :
    ∀ {xs : List (Expr × Rat)}, (∀ l ∈ keys xs, Canonical l) →
      (k ∈ keys (addTo key q xs) ↔ k = key ∨ k ∈ keys xs)
  | [], _ => by simp [addTo]
  | (l, r) :: rest, h => by
    have hl : Canonical l := h l (by simp)
    have hrest : ∀ m ∈ keys rest, Canonical m := fun m hm => h m (List.mem_cons_of_mem l hm)
    rw [addTo]
    split
    · simp
    · rename_i heq
      obtain rfl := hkey.eq_of_compare hl heq
      simp
    · simp only [keys, List.map_cons, List.mem_cons]
      rw [← keys, mem_keys_addTo hkey hrest]
      tauto

theorem ascending_addTo {key : Expr} {q : Rat} : ∀ {xs : List (Expr × Rat)}, Ascending xs →
    Ascending (addTo key q xs)
  | [], _ => List.pairwise_singleton _ _
  | (l, r) :: rest, hasc => by
    have hasc := List.pairwise_cons.mp hasc
    rw [addTo]
    split
    · rename_i hlt
      refine List.pairwise_cons.mpr ⟨fun p hp => ?_, List.pairwise_cons.mpr hasc⟩
      rcases List.mem_cons.mp hp with rfl | hp
      · exact hlt
      · exact Std.TransCmp.lt_trans hlt (hasc.1 p hp)
    · exact List.pairwise_cons.mpr hasc
    · rename_i hgt
      refine List.pairwise_cons.mpr ⟨fun p hp => ?_, ascending_addTo hasc.2⟩
      rcases mem_keys_of_addTo (List.mem_map_of_mem hp) with hk | hk
      · rw [hk]
        exact Std.OrientedCmp.lt_of_gt hgt
      · obtain ⟨p', hp', heq⟩ := List.mem_map.mp hk
        rw [← heq]
        exact hasc.1 p' hp'

/-! ## All additions -/

theorem ascending_foldl (xs : List (Expr × Rat)) : ∀ t : Tally, Ascending t.entries →
    Ascending (xs.foldl (fun t p => t.add p.1 p.2) t).entries := by
  induction xs with
  | nil => exact fun _ h => h
  | cons p xs ih => exact fun t h => ih _ (ascending_addTo h)

theorem total_foldl (k : Expr) (xs : List (Expr × Rat)) : ∀ t : Tally,
    total k (xs.foldl (fun t p => t.add p.1 p.2) t).entries = total k t.entries + total k xs := by
  induction xs with
  | nil => simp
  | cons p xs ih =>
    intro t
    rw [List.foldl_cons, ih, add, total_addTo, total_cons]
    ring

theorem mem_keys_of_foldl {k : Expr} (xs : List (Expr × Rat)) : ∀ t : Tally,
    k ∈ keys (xs.foldl (fun t p => t.add p.1 p.2) t).entries → k ∈ keys t.entries ∨ k ∈ keys xs := by
  induction xs with
  | nil => exact fun _ h => Or.inl h
  | cons p xs ih =>
    intro t h
    rcases ih _ h with h | h
    · exact (mem_keys_of_addTo h).elim (fun hk => Or.inr (by simp [hk])) Or.inl
    · exact Or.inr (List.mem_cons_of_mem _ h)

theorem ascending_ofList (xs : List (Expr × Rat)) : Ascending (ofList xs).entries :=
  ascending_foldl xs empty List.Pairwise.nil

theorem total_ofList (k : Expr) (xs : List (Expr × Rat)) :
    total k (ofList xs).entries = total k xs :=
  (total_foldl k xs empty).trans (zero_add _)

theorem mem_keys_of_ofList {k : Expr} {xs : List (Expr × Rat)}
    (h : k ∈ keys (ofList xs).entries) : k ∈ keys xs :=
  (mem_keys_of_foldl xs empty h).resolve_left List.not_mem_nil

theorem mem_keys_foldl {k : Expr} (xs : List (Expr × Rat)) : ∀ t : Tally,
    (∀ l ∈ keys xs, Canonical l) → (∀ l ∈ keys t.entries, Canonical l) →
      (k ∈ keys (xs.foldl (fun t p => t.add p.1 p.2) t).entries ↔
        k ∈ keys t.entries ∨ k ∈ keys xs) := by
  induction xs with
  | nil => simp
  | cons p xs ih =>
    intro t hxs ht
    have hp : Canonical p.1 := hxs p.1 (by simp)
    have hadd : ∀ k, k ∈ keys (t.add p.1 p.2).entries ↔ k = p.1 ∨ k ∈ keys t.entries :=
      fun k => mem_keys_addTo hp ht
    rw [List.foldl_cons, ih _ (fun l hl => hxs l (List.mem_cons_of_mem _ hl))
      fun l hl => ((hadd l).mp hl).elim (fun h => h ▸ hp) (ht l), hadd k]
    simp only [keys, List.map_cons, List.mem_cons]
    tauto

/-! ## Entries and totals -/

theorem total_filter_ne_zero (k : Expr) : ∀ xs : List (Expr × Rat),
    total k (xs.filter fun p => p.2 != 0) = total k xs
  | [] => rfl
  | p :: xs => by
    rw [List.filter_cons, total_cons, ← total_filter_ne_zero k xs]
    split
    · rw [total_cons]
    · next h0 =>
      have hp : p.2 = 0 := by simpa using h0
      rw [hp, ite_self, zero_add]

/-- In a strictly ascending list the total of a key is its amount. -/
theorem total_of_ascending {k : Expr} {q : Rat} {xs : List (Expr × Rat)} (hxs : Ascending xs)
    (h : (k, q) ∈ xs) : total k xs = q := by
  induction xs with
  | nil => cases h
  | cons p xs ih =>
    obtain ⟨hp, hxs⟩ := List.pairwise_cons.mp hxs
    rw [total_cons]
    rcases List.mem_cons.mp h with rfl | h
    · have hzero : total k xs = 0 := by
        refine List.sum_eq_zero fun r hr => ?_
        obtain ⟨p, hpx, rfl⟩ := List.mem_map.mp hr
        exact if_neg (by rw [hp p hpx]; exact nofun)
      rw [if_pos (Expr.compare_self k), hzero, add_zero]
    · have hgt : Expr.compare k p.1 = .gt := Std.OrientedCmp.gt_of_lt (hp _ h)
      rw [ih hxs h, if_neg (by rw [hgt]; exact nofun), zero_add]

theorem total_eq_zero {k : Expr} {xs : List (Expr × Rat)}
    (h : ∀ p ∈ xs, Expr.compare k p.1 ≠ .eq) : total k xs = 0 := by
  refine List.sum_eq_zero fun r hr => ?_
  obtain ⟨p, hp, rfl⟩ := List.mem_map.mp hr
  exact if_neg (h p hp)

theorem total_congr {k l : Expr} (h : Expr.compare k l = .eq) (xs : List (Expr × Rat)) :
    total k xs = total l xs := by
  simp only [total, Std.TransCmp.congr_left h]

/-- **Ascending entries are determined by their totals**, up to keys that compare equal and if none of
the amounts is zero: of two lists with the same totals neither starts below the other. -/
theorem forall₂_of_total {xs ys : List (Expr × Rat)} (hxs : Ascending xs) (hys : Ascending ys)
    (hx : ∀ p ∈ xs, p.2 ≠ 0) (hy : ∀ p ∈ ys, p.2 ≠ 0)
    (htotal : ∀ k ∈ keys xs ++ keys ys, total k xs = total k ys) :
    List.Forall₂ (fun p q => Expr.compare p.1 q.1 = .eq ∧ p.2 = q.2) xs ys := by
  have below {p : Expr × Rat} {zs : List (Expr × Rat)} (hzs : Ascending zs)
      (hlt : ∀ q ∈ zs.head?, Expr.compare p.1 q.1 = .lt) : total p.1 zs = 0 := by
    refine total_eq_zero fun q hq => ?_
    cases zs with
    | nil => cases hq
    | cons z zs =>
      have hz := hlt z rfl
      rcases List.mem_cons.mp hq with rfl | hq
      · rw [hz]
        nofun
      · rw [Std.TransCmp.lt_trans hz ((List.pairwise_cons.mp hzs).1 q hq)]
        nofun
  induction xs generalizing ys with
  | nil =>
    cases ys with
    | nil => exact .nil
    | cons q ys =>
      have htq := htotal q.1 (by simp)
      rw [total_nil, total_of_ascending hys List.mem_cons_self] at htq
      exact absurd htq.symm (hy q List.mem_cons_self)
  | cons p xs ih =>
    cases ys with
    | nil =>
      have htp := htotal p.1 (by simp)
      rw [total_nil, total_of_ascending hxs List.mem_cons_self] at htp
      exact absurd htp (hx p List.mem_cons_self)
    | cons q ys =>
      have hp := total_of_ascending hxs (k := p.1) (q := p.2) List.mem_cons_self
      have hq := total_of_ascending hys (k := q.1) (q := q.2) List.mem_cons_self
      have htp := htotal p.1 (by simp)
      have htq := htotal q.1 (by simp)
      cases hcompare : Expr.compare p.1 q.1 with
      | lt =>
        rw [hp, below hys (by simpa using hcompare)] at htp
        exact absurd htp (hx p List.mem_cons_self)
      | gt =>
        rw [hq, below hxs (by simpa using Std.OrientedCmp.lt_of_gt hcompare)] at htq
        exact absurd htq.symm (hy q List.mem_cons_self)
      | eq =>
        have hamount : p.2 = q.2 := by rw [← hp, htp, total_congr hcompare, hq]
        refine .cons ⟨hcompare, hamount⟩ (ih (List.pairwise_cons.mp hxs).2
          (List.pairwise_cons.mp hys).2 (fun r hr => hx r (List.mem_cons_of_mem _ hr))
          (fun r hr => hy r (List.mem_cons_of_mem _ hr)) fun k hk => ?_)
        have hk' := htotal k (by
          rcases List.mem_append.mp hk with hk | hk
          · exact List.mem_append_left _ (List.mem_cons_of_mem _ hk)
          · exact List.mem_append_right _ (List.mem_cons_of_mem _ hk))
        rw [total_cons, total_cons, Std.TransCmp.congr_right hcompare, hamount] at hk'
        exact add_left_cancel hk'

/-- Where keys that compare equal are equal, the entries are the same. -/
theorem eq_of_total {xs ys : List (Expr × Rat)} (hxs : Ascending xs) (hys : Ascending ys)
    (hx : ∀ p ∈ xs, p.2 ≠ 0) (hy : ∀ p ∈ ys, p.2 ≠ 0)
    (hkeys : ∀ p ∈ xs, ∀ q ∈ ys, Expr.compare p.1 q.1 = .eq → p.1 = q.1)
    (htotal : ∀ k ∈ keys xs ++ keys ys, total k xs = total k ys) : xs = ys := by
  have hrelated := forall₂_of_total hxs hys hx hy htotal
  clear hxs hys hx hy htotal
  induction hrelated with
  | nil => rfl
  | @cons p q xs ys hpq _ ih =>
    obtain rfl : p = q :=
      Prod.ext (hkeys p List.mem_cons_self q List.mem_cons_self hpq.1) hpq.2
    rw [ih fun r hr s hs => hkeys r (List.mem_cons_of_mem _ hr) s (List.mem_cons_of_mem _ hs)]

section OfList

variable {xs : List (Expr × Rat)} (hxs : ∀ k ∈ keys xs, Canonical k)
include hxs

theorem mem_keys_ofList {k : Expr} : k ∈ keys (ofList xs).entries ↔ k ∈ keys xs :=
  (mem_keys_foldl xs empty hxs (by simp [empty])).trans (or_iff_right List.not_mem_nil)

omit hxs in
theorem nodup_keys_ofList (xs : List (Expr × Rat)) : (keys (ofList xs).entries).Nodup := by
  refine List.pairwise_map.mpr ((ascending_ofList xs).imp fun {p q} hlt heq => ?_)
  rw [heq, Expr.compare_self] at hlt
  cases hlt

/-- In a list with distinct keys the total is the amount. -/
theorem total_of_mem {k : Expr} {q : Rat} (hk : (keys xs).Nodup) (h : (k, q) ∈ xs) :
    total k xs = q := by
  induction xs with
  | nil => cases h
  | cons p xs ih =>
    rw [keys, List.map_cons, List.nodup_cons] at hk
    have hrest : ∀ l ∈ keys xs, Canonical l := fun l hl => hxs l (List.mem_cons_of_mem _ hl)
    rw [total_cons]
    rcases List.mem_cons.mp h with rfl | h
    · have hzero : total k xs = 0 := by
        refine List.sum_eq_zero fun r hr => ?_
        obtain ⟨p, hp, rfl⟩ := List.mem_map.mp hr
        have hmem : p.1 ∈ keys xs := List.mem_map_of_mem hp
        refine if_neg fun heq => hk.1 ?_
        rw [(hxs k (by simp)).eq_of_compare (hrest p.1 hmem) heq]
        exact hmem
      rw [if_pos (Expr.compare_self k), hzero, add_zero]
    · have hmem : k ∈ keys xs := List.mem_map_of_mem h
      rw [ih hrest hk.2 h, if_neg, zero_add]
      intro heq
      rw [(hrest k hmem).eq_of_compare (hxs p.1 (by simp)) heq] at hmem
      exact hk.1 hmem

/-- **The entries of a tally are the keys with their totals.** -/
theorem mem_ofList {k : Expr} {q : Rat} :
    (k, q) ∈ (ofList xs).entries ↔ k ∈ keys xs ∧ q = total k xs := by
  have hcanon : ∀ l ∈ keys (ofList xs).entries, Canonical l := fun l hl =>
    hxs l ((mem_keys_ofList hxs).mp hl)
  constructor
  · intro h
    refine ⟨(mem_keys_ofList hxs).mp (List.mem_map_of_mem h), ?_⟩
    rw [← total_ofList k xs, total_of_mem hcanon (nodup_keys_ofList xs) h]
  · rintro ⟨hk, rfl⟩
    obtain ⟨⟨l, r⟩, hl, rfl⟩ := List.mem_map.mp ((mem_keys_ofList hxs).mpr hk)
    rw [← total_ofList, total_of_mem hcanon (nodup_keys_ofList xs) hl]
    exact hl

omit hxs in
theorem nodup_ofList (xs : List (Expr × Rat)) : (ofList xs).entries.Nodup :=
  (nodup_keys_ofList xs).of_map

/-- **Amounts for distinct keys stay as they are.** -/
theorem ofList_perm_of_nodup (hk : (keys xs).Nodup) : (ofList xs).entries.Perm xs := by
  refine (List.perm_ext_iff_of_nodup (nodup_ofList xs) hk.of_map).mpr fun ⟨k, q⟩ => ?_
  rw [mem_ofList hxs]
  constructor
  · rintro ⟨hkey, rfl⟩
    obtain ⟨⟨l, r⟩, hl, rfl⟩ := List.mem_map.mp hkey
    rw [total_of_mem hxs hk hl]
    exact hl
  · exact fun h => ⟨List.mem_map_of_mem h, (total_of_mem hxs hk h).symm⟩

end OfList

/-- **A tally depends on the keys and their totals only**, not on the order of the additions. -/
theorem ofList_congr {xs ys : List (Expr × Rat)} (hxs : ∀ k ∈ keys xs, Canonical k)
    (hkeys : ∀ k, k ∈ keys xs ↔ k ∈ keys ys) (htotal : ∀ k, total k xs = total k ys) :
    ofList xs = ofList ys := by
  have hys : ∀ k ∈ keys ys, Canonical k := fun k hk => hxs k ((hkeys k).mpr hk)
  have hmem : ∀ p, p ∈ (ofList xs).entries ↔ p ∈ (ofList ys).entries := fun ⟨k, q⟩ => by
    rw [mem_ofList hxs, mem_ofList hys, hkeys, htotal]
  have hperm := (List.perm_ext_iff_of_nodup (nodup_ofList xs) (nodup_ofList ys)).mpr hmem
  refine congrArg Tally.mk (List.Perm.eq_of_pairwise ?_ (ascending_ofList xs)
    (ascending_ofList ys) hperm)
  intro p q _ _ hpq hqp
  exact absurd hpq (Std.OrientedCmp.not_lt_of_lt hqp)

/-- **Without the keys that cancel a tally depends on the totals only.** -/
theorem filter_ofList_congr {xs ys : List (Expr × Rat)} (hxs : ∀ k ∈ keys xs, Canonical k)
    (hys : ∀ k ∈ keys ys, Canonical k) (htotal : ∀ k, total k xs = total k ys) :
    (ofList xs).entries.filter (fun p => p.2 != 0) = (ofList ys).entries.filter fun p => p.2 != 0 := by
  have hne (zs : List (Expr × Rat)) : ∀ p ∈ zs.filter (fun p => p.2 != 0), p.2 ≠ 0 := fun p hp => by
    simpa using (List.mem_filter.mp hp).2
  refine eq_of_total ((ascending_ofList xs).filter _) ((ascending_ofList ys).filter _) (hne _) (hne _)
    (fun p hp q hq heq => ?_) fun k _ => ?_
  · have hp' := mem_keys_of_ofList (List.mem_map_of_mem (List.mem_filter.mp hp).1)
    have hq' := mem_keys_of_ofList (List.mem_map_of_mem (List.mem_filter.mp hq).1)
    exact (hxs p.1 hp').eq_of_compare (hys q.1 hq') heq
  · rw [total_filter_ne_zero, total_filter_ne_zero, total_ofList, total_ofList, htotal]

end SymbolicAlgebra.Tally
