import Mathlib.Data.Int.CardIntervalMod
import Mathlib.Data.List.Nodup
import Mathlib.Data.List.Rotate

/-!
# Serving two lists in turn

`turn l i` is the element of `l` whose turn comes after `i` turns, when the head of the
list is served and goes to its end.  In a run of turns no element is served two times more
than another.

A `Rota` serves a main list in turn and, at every call that finds its counter at the
limit, a second list in turn instead: a probe.  `pick` says which element each call
serves.  The served elements of either list are its turns in order, and the number of
probes in a run of calls is a quotient.
-/

universe u

namespace Ylars.Lib

variable {α : Type u}

/-! ## One list in turn -/

/-- The element served after `i` turns, `none` when there is nothing to serve. -/
def turn (l : List α) (i : ℕ) : Option α := l[i % l.length]?

@[simp] theorem turn_nil (i : ℕ) : turn ([] : List α) i = none := by simp [turn]

theorem mem_of_turn_eq {l : List α} {i : ℕ} {a : α} (h : turn l i = some a) : a ∈ l :=
  List.mem_of_getElem? h

/-- After `i` turns the list is rotated, and the element in front is served next. -/
theorem head?_rotate_eq_turn (l : List α) (i : ℕ) : (l.rotate i).head? = turn l i := by
  cases l with
  | nil => simp
  | cons a l =>
      have hlt : i % (a :: l).length < (a :: l).length := Nat.mod_lt _ (by simp)
      rw [← List.rotate_mod, List.head?_rotate hlt, turn]

/-- Serving the element in front is one more rotation. -/
theorem exists_rotate_eq_cons {l : List α} (hl : l ≠ []) (i : ℕ) :
    ∃ a rest, l.rotate i = a :: rest ∧ turn l i = some a ∧ l.rotate (i + 1) = rest ++ [a] := by
  obtain ⟨a, rest, hr⟩ : ∃ a rest, l.rotate i = a :: rest :=
    List.exists_cons_of_ne_nil (mt List.rotate_eq_nil_iff.mp hl)
  refine ⟨a, rest, hr, ?_, ?_⟩
  · rw [← head?_rotate_eq_turn, hr, List.head?_cons]
  · rw [← List.rotate_rotate, hr, List.rotate_cons_succ, List.rotate_zero]

/-- The first `n` turns. -/
def turns (l : List α) (n : ℕ) : List (Option α) := (List.range n).map (turn l)

@[simp] theorem turns_zero (l : List α) : turns l 0 = [] := rfl

theorem turns_succ (l : List α) (n : ℕ) : turns l (n + 1) = turns l n ++ [turn l n] := by
  simp [turns, List.range_succ]

/-- The turns of a member are the ones with its index as remainder. -/
theorem turn_eq_some_getElem_iff {l : List α} (hl : l.Nodup) {j : ℕ} (hj : j < l.length)
    (i : ℕ) : turn l i = some l[j] ↔ i ≡ j [MOD l.length] := by
  have hi : i % l.length < l.length := Nat.mod_lt _ (Nat.zero_lt_of_lt hj)
  rw [turn, List.getElem?_eq_getElem hi, Option.some.injEq, hl.getElem_inj_iff, Nat.ModEq,
    Nat.mod_eq_of_lt hj]

section

variable [DecidableEq α]

/-- A member has every `l.length`-th turn. -/
theorem count_turns {l : List α} (hl : l.Nodup) {j : ℕ} (hj : j < l.length) (n : ℕ) :
    (turns l n).count (some l[j]) = n / l.length + if j < n % l.length then 1 else 0 := by
  have hcount := Nat.count_modEq_card n (Nat.zero_lt_of_lt hj) j
  rw [Nat.mod_eq_of_lt hj] at hcount
  rw [← hcount, turns, List.count, List.countP_map, Nat.count]
  refine List.countP_congr fun i _ ↦ ?_
  simpa using turn_eq_some_getElem_iff hl hj i

/-- **Turns are fair.**  No member has two turns more than another. -/
theorem count_turns_le {l : List α} (hl : l.Nodup) {a b : α} (ha : a ∈ l) (hb : b ∈ l) (n : ℕ) :
    (turns l n).count (some a) ≤ (turns l n).count (some b) + 1 := by
  obtain ⟨i, hi, rfl⟩ := List.getElem_of_mem ha
  obtain ⟨j, hj, rfl⟩ := List.getElem_of_mem hb
  rw [count_turns hl hi, count_turns hl hj]
  split <;> split <;> omega

/-- An element that is not a member has no turn. -/
theorem count_turns_of_notMem {l : List α} {a : α} (ha : a ∉ l) (n : ℕ) :
    (turns l n).count (some a) = 0 := by
  rw [List.count_eq_zero]
  intro h
  obtain ⟨i, -, hi⟩ := List.mem_map.mp h
  exact ha (mem_of_turn_eq hi)

end

/-! ## Two lists and a counter -/

/-- A main list, and a second one that is probed when the counter is at its limit. -/
structure Rota (α : Type u) where
  main : List α
  second : List α
  /-- How many calls go by between two probes. -/
  limit : ℕ
  /-- How many of them have gone by. -/
  cnt : ℕ
  cnt_le : cnt ≤ limit

namespace Rota

variable (r : Rota α)

/-- The number of probes among the first `n` calls. -/
def probes (n : ℕ) : ℕ := if r.second.isEmpty then 0 else (r.cnt + n) / (r.limit + 1)

/-- The counter after `n` calls. -/
def cntAfter (n : ℕ) : ℕ := if r.second.isEmpty then r.cnt else (r.cnt + n) % (r.limit + 1)

/-- Call `n` is a probe: there is something to probe and the counter is at its limit. -/
def isProbe (n : ℕ) : Bool := !r.second.isEmpty && r.cntAfter n == r.limit

/-- The element that call `n` serves, `none` when there is nothing to serve. -/
def pick (n : ℕ) : Option α :=
  if r.isProbe n then turn r.second (r.probes n) else turn r.main (n - r.probes n)

/-- The elements that the first `n` calls serve. -/
def picks (n : ℕ) : List (Option α) := (List.range n).map r.pick

variable {r} {n : ℕ}

theorem picks_succ : r.picks (n + 1) = r.picks n ++ [r.pick n] := by
  simp [picks, List.range_succ]

@[simp] theorem probes_zero : r.probes 0 = 0 := by
  unfold probes
  split
  · rfl
  · exact Nat.div_eq_of_lt (Nat.lt_succ_of_le r.cnt_le)

@[simp] theorem cntAfter_zero : r.cntAfter 0 = r.cnt := by
  unfold cntAfter
  split
  · rfl
  · exact Nat.mod_eq_of_lt (Nat.lt_succ_of_le r.cnt_le)

theorem cntAfter_le : r.cntAfter n ≤ r.limit := by
  unfold cntAfter
  split
  · exact r.cnt_le
  · exact Nat.lt_succ_iff.mp (Nat.mod_lt _ (Nat.succ_pos _))

theorem succ_cases :
    (r.isProbe n = true ∧ r.second.isEmpty = false ∧ r.cntAfter n = r.limit ∧
      r.cntAfter (n + 1) = 0 ∧ r.probes (n + 1) = r.probes n + 1) ∨
    (r.isProbe n = false ∧ r.second.isEmpty = false ∧ r.cntAfter n < r.limit ∧
      r.cntAfter (n + 1) = r.cntAfter n + 1 ∧ r.probes (n + 1) = r.probes n) ∨
    (r.isProbe n = false ∧ r.second.isEmpty = true ∧
      r.cntAfter (n + 1) = r.cntAfter n ∧ r.probes (n + 1) = r.probes n) := by
  cases he : r.second.isEmpty with
  | true => exact .inr (.inr (by simp [isProbe, cntAfter, probes, he]))
  | false =>
      have hle : r.cntAfter n ≤ r.limit := cntAfter_le
      have hsum := Nat.div_add_mod (r.cnt + n) (r.limit + 1)
      simp only [isProbe, cntAfter, probes, he, Bool.not_false, Bool.true_and,
        Bool.false_eq_true, if_false, ← Nat.add_assoc] at hle ⊢
      by_cases hp : (r.cnt + n) % (r.limit + 1) = r.limit
      · obtain ⟨hdiv, hmod⟩ := (Nat.div_mod_unique (a := r.cnt + n + 1) (c := 0)
          (d := (r.cnt + n) / (r.limit + 1) + 1) (b := r.limit + 1) (Nat.succ_pos _)).mpr
          ⟨by rw [Nat.mul_add, Nat.mul_one]; omega, Nat.succ_pos _⟩
        exact .inl ⟨by simp [hp], trivial, hp, hmod, hdiv⟩
      · have hlt : (r.cnt + n) % (r.limit + 1) < r.limit := by omega
        obtain ⟨hdiv, hmod⟩ := (Nat.div_mod_unique (a := r.cnt + n + 1)
          (c := (r.cnt + n) % (r.limit + 1) + 1) (d := (r.cnt + n) / (r.limit + 1))
          (b := r.limit + 1) (Nat.succ_pos _)).mpr ⟨by omega, by omega⟩
        exact .inr (.inl ⟨by simp [hp], trivial, hlt, hmod, hdiv⟩)

theorem probes_le : r.probes n ≤ n := by
  induction n with
  | zero => simp
  | succ n ih => rcases succ_cases (r := r) (n := n) with h | h | h <;> omega

section

variable [DecidableEq α]

/-- **The two lists are served in turn.**  An element is served as often as it has turns
among the probes and among the other calls. -/
theorem count_picks (a : α) : (r.picks n).count (some a) =
    (turns r.main (n - r.probes n)).count (some a) +
      (turns r.second (r.probes n)).count (some a) := by
  induction n with
  | zero => simp [picks]
  | succ n ih =>
      have hle : r.probes n ≤ n := probes_le
      rw [picks_succ, List.count_append, ih, pick]
      rcases succ_cases (r := r) (n := n) with ⟨hp, -, -, -, h⟩ | ⟨hp, -, -, -, h⟩ | ⟨hp, -, -, h⟩
      · rw [if_pos hp, h, turns_succ, List.count_append, Nat.add_sub_add_right, Nat.add_assoc]
      · rw [if_neg (by simp [hp]), h, Nat.succ_sub hle, turns_succ, List.count_append,
          Nat.add_right_comm]
      · rw [if_neg (by simp [hp]), h, Nat.succ_sub hle, turns_succ, List.count_append,
          Nat.add_right_comm]

theorem count_picks_main_le (hnd : r.main.Nodup) (hd : r.main.Disjoint r.second) {a b : α}
    (ha : a ∈ r.main) (hb : b ∈ r.main) :
    (r.picks n).count (some a) ≤ (r.picks n).count (some b) + 1 := by
  rw [count_picks, count_picks, count_turns_of_notMem (hd ha), count_turns_of_notMem (hd hb)]
  exact count_turns_le hnd ha hb _

theorem count_picks_second_le (hnd : r.second.Nodup) (hd : r.main.Disjoint r.second) {a b : α}
    (ha : a ∈ r.second) (hb : b ∈ r.second) :
    (r.picks n).count (some a) ≤ (r.picks n).count (some b) + 1 := by
  rw [count_picks, count_picks, count_turns_of_notMem fun h ↦ hd h ha,
    count_turns_of_notMem fun h ↦ hd h hb, Nat.zero_add, Nat.zero_add]
  exact count_turns_le hnd ha hb _

end

/-- A probe serves a member of the second list. -/
theorem exists_pick_of_isProbe (h : r.isProbe n = true) : ∃ a ∈ r.second, r.pick n = some a := by
  have hne : r.second ≠ [] := by
    rintro he
    simp [isProbe, he] at h
  obtain ⟨a, -, -, ha, -⟩ := exists_rotate_eq_cons hne (r.probes n)
  exact ⟨a, mem_of_turn_eq ha, by rw [pick, if_pos h, ha]⟩

theorem pick_of_not_isProbe (h : r.isProbe n = false) :
    r.pick n = turn r.main (n - r.probes n) := by
  rw [pick, if_neg (by simp [h])]

theorem countP_picks_second (P : Option α → Bool) (hmain : ∀ i, P (turn r.main i) = false)
    (hsecond : ∀ a ∈ r.second, P (some a) = true) : (r.picks n).countP P = r.probes n := by
  induction n with
  | zero => simp [picks]
  | succ n ih =>
      rw [picks_succ, List.countP_append, ih, List.countP_singleton]
      rcases succ_cases (r := r) (n := n) with ⟨hp, -, -, -, h⟩ | ⟨hp, -, -, -, h⟩ | ⟨hp, -, -, h⟩
      · obtain ⟨a, ha, hpick⟩ := exists_pick_of_isProbe hp
        rw [hpick, if_pos (hsecond a ha), h]
      · rw [pick_of_not_isProbe hp, hmain, h]
        rfl
      · rw [pick_of_not_isProbe hp, hmain, h]
        rfl

end Rota

end Ylars.Lib
