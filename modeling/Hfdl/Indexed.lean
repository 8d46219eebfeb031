import Mathlib.Data.List.Basic

/-! Half-open ranges of lists, and the binary search for the first index of a range with a property. -/
namespace Hfdl.Indexed
variable {α : Type u}

/-- The elements at the indexes of `[i, j)`, as far as they exist. -/
def slice (l : List α) (i j : Nat) : List α := (l.take j).drop i

theorem length_slice : (slice l i j).length = min j l.length - i := by
  simp [slice]

theorem slice_empty (none_left : j ≤ i) : slice l i j = [] := by
  rw [slice, List.drop_eq_nil_iff, List.length_take]
  omega

theorem getElem?_slice : (slice l i j)[k]? = if i + k < j then l[i + k]? else none := by
  rw [slice, List.getElem?_drop, List.getElem?_take]

theorem slice_append (left : i ≤ j) (right : j ≤ k) : slice l i j ++ slice l j k = slice l i k := by
  have split : l.take k = l.take j ++ (l.take k).drop j := by
    have again : (l.take k).take j = l.take j := by rw [List.take_take, Nat.min_eq_left right]
    rw [← again, List.take_append_drop]
  simp only [slice]
  conv_rhs => rw [split, List.drop_append]
  by_cases long : i ≤ (l.take j).length
  · rw [Nat.sub_eq_zero_of_le long, List.drop_zero]
  · -- the list ends before the first slice
    have short : (l.take k).drop j = [] := by
      rw [List.drop_eq_nil_iff]
      simp only [List.length_take] at long ⊢
      omega
    rw [short, List.drop_nil]

theorem slice_min_append (before : i ≤ j) : slice l i (min k j) ++ slice l j k = slice l i k := by
  by_cases done : k ≤ j
  · rw [slice_empty done, Nat.min_eq_left done, List.append_nil]
  · rw [Nat.min_eq_right (by omega), slice_append before (by omega)]

theorem slice_slice (inside : a + j ≤ b) : slice (slice l a b) i j = slice l (a + i) (a + j) := by
  apply List.ext_getElem?
  intro k
  simp only [getElem?_slice]
  by_cases low : i + k < j
  · rw [if_pos low, if_pos (by omega), if_pos (by omega), Nat.add_assoc]
  · rw [if_neg low, if_neg (by omega)]

theorem slice_append_right (l' : List α) : slice (l ++ l') (l.length + i) (l.length + j) = slice l' i j := by
  apply List.ext_getElem?
  intro k
  simp only [getElem?_slice, Nat.add_assoc, Nat.add_lt_add_iff_left]
  rw [List.getElem?_append_right (Nat.le_add_right ..), Nat.add_sub_cancel_left]

theorem slice_append_left (l' : List α) (inside : j ≤ l.length) : slice (l ++ l') i j = slice l i j := by
  rw [slice, slice, List.take_append_of_le_length inside]

/-- One halving a step; the last argument but one is a bound on the steps. -/
def searchLoop (f : Nat → Bool) : Nat → Nat → Nat → Nat
  | 0, i, _ => i
  | fuel + 1, i, j =>
    if i < j then
      if f ((i + j) / 2) then searchLoop f fuel i ((i + j) / 2) else searchLoop f fuel ((i + j) / 2 + 1) j
    else i

/-- The smallest index below `n` with a monotone property, and `n` if there is none. -/
def search (n : Nat) (f : Nat → Bool) : Nat := searchLoop f n 0 n

theorem searchLoop_spec {f : Nat → Bool} (enough : j - i ≤ fuel) (ordered : i ≤ j) (high : j = n ∨ f j = true) :
    searchLoop f fuel i j = n ∨ f (searchLoop f fuel i j) = true := by
  induction fuel generalizing i j with
  | zero =>
    obtain rfl : i = j := by omega
    exact high
  | succ fuel ih =>
    rw [searchLoop]
    split
    · split
      · apply ih
        · omega
        · omega
        · exact .inr ‹_›
      · apply ih
        · omega
        · omega
        · exact high
    · obtain rfl : i = j := by omega
      exact high

theorem searchLoop_before {f : Nat → Bool} (mono : ∀ a b, a ≤ b → b < n → f a = true → f b = true) (high : j ≤ n)
    (low : ∀ k < i, f k = false) : ∀ k < searchLoop f fuel i j, f k = false := by
  induction fuel generalizing i j with
  | zero => exact low
  | succ fuel ih =>
    rw [searchLoop]
    split
    · split
      · exact ih (by omega) low
      · rename_i missed
        apply ih high
        intro k below
        by_contra found
        exact missed (mono k _ (by omega) (by omega) (by simpa using found))
    · exact low

theorem search_before {f : Nat → Bool} (mono : ∀ a b, a ≤ b → b < n → f a = true → f b = true) :
    ∀ k < search n f, f k = false :=
  searchLoop_before mono (Nat.le_refl n) fun _ never => absurd never (Nat.not_lt_zero _)

theorem search_spec {f : Nat → Bool} (inside : search n f < n) : f (search n f) = true := by
  have either := searchLoop_spec (Nat.le_of_eq (Nat.sub_zero n)) (Nat.zero_le n) (.inl rfl) (f := f)
  exact either.resolve_left (Nat.ne_of_lt inside)

theorem searchLoop_all {f : Nat → Bool} (enough : j - i ≤ fuel) (ordered : i ≤ j) (missed : ∀ k, i ≤ k → k < j → f k = false) :
    searchLoop f fuel i j = j := by
  induction fuel generalizing i with
  | zero =>
    rw [searchLoop]
    omega
  | succ fuel ih =>
    rw [searchLoop]
    split
    · rw [if_neg (by simp [missed _ (show i ≤ (i + j) / 2 by omega) (by omega)])]
      exact ih (by omega) (by omega) fun k above => missed k (by omega)
    · omega

def climbLoop (k : Nat) : Nat → Nat → Nat → Nat
  | 0, i, _ => i
  | fuel + 1, i, n => if i < n ∧ (i + n) / 2 < k then climbLoop k fuel ((i + n) / 2 + 1) n else i

/-- How many of `n` elements a search goes through upwards before it looks at index `k` or a later one. -/
def climb (n k : Nat) : Nat := climbLoop k n 0 n

theorem climbLoop_bounds (fuel : Nat) (ordered : i ≤ n) (below : i ≤ k) :
    i ≤ climbLoop k fuel i n ∧ climbLoop k fuel i n ≤ n ∧ climbLoop k fuel i n ≤ k := by
  induction fuel generalizing i with
  | zero => exact ⟨Nat.le_refl _, ordered, below⟩
  | succ fuel ih =>
    rw [climbLoop]
    split
    · obtain ⟨low, high, short⟩ := ih (show (i + n) / 2 + 1 ≤ n by omega) (by omega)
      exact ⟨by omega, high, short⟩
    · exact ⟨Nat.le_refl _, ordered, below⟩

theorem searchLoop_climb {f : Nat → Bool} (mono : ∀ a b, a ≤ b → b < k → f a = true → f b = true)
    (never : ∀ m, k ≤ m → f m = false)
    (enough : n - i ≤ fuel) (ordered : i ≤ n) (low : ∀ m < i, f m = false) :
    searchLoop f fuel i n = n ∧ (∀ m < climbLoop k fuel i n, f m = false) ∨
      searchLoop f fuel i n < climbLoop k fuel i n ∧ f (searchLoop f fuel i n) = true ∧
        ∀ m < searchLoop f fuel i n, f m = false := by
  induction fuel generalizing i with
  | zero =>
    obtain rfl : i = n := by omega
    exact .inl ⟨rfl, low⟩
  | succ fuel ih =>
    by_cases more : i < n
    · rw [searchLoop, if_pos more]
      by_cases near : (i + n) / 2 < k
      · rw [climbLoop, if_pos (show i < n ∧ (i + n) / 2 < k from ⟨more, near⟩)]
        by_cases found : f ((i + n) / 2) = true
        · rw [if_pos found]
          -- the rest of the search stays below the probe
          have before : ∀ m < searchLoop f fuel i ((i + n) / 2), f m = false := searchLoop_before mono (Nat.le_of_lt near) low
          have holds : f (searchLoop f fuel i ((i + n) / 2)) = true :=
            (searchLoop_spec (by omega) (by omega) (.inl rfl)).elim (fun same => same ▸ found) id
          have bounds := (climbLoop_bounds fuel (show (i + n) / 2 + 1 ≤ n by omega) near).1
          have at_most : searchLoop f fuel i ((i + n) / 2) ≤ (i + n) / 2 := Nat.le_of_not_lt fun beyond => by
            rw [before _ beyond] at found
            cases found
          exact .inr ⟨by omega, holds, before⟩
        · rw [if_neg found]
          refine ih (by omega) (by omega) fun m below => ?_
          by_contra held
          exact found (mono m _ (by omega) near (by simpa using held))
      · rw [if_neg (by simp [never _ (Nat.le_of_not_lt near)]), climbLoop, if_neg fun both => near both.2]
        exact .inl ⟨searchLoop_all (by omega) (by omega) fun m above _ => never m (by omega), low⟩
    · rw [searchLoop, if_neg more, climbLoop, if_neg fun both => more both.1]
      exact .inl ⟨by omega, low⟩

/-- The binary search of a list for a property that stays once it holds, up to an index from which on no element has it,
finds the first element with it among those it reaches. -/
theorem getElem?_search {l : List α} {p : α → Bool} (short : k ≤ l.length)
    (mono : (l.take k).Pairwise fun a b => p a = true → p b = true) (never : ∀ a ∈ l.drop k, p a = false) :
    l[search l.length fun i => l[i]?.any p]? = (l.take (climb l.length k)).find? p := by
  have at_ (i : Nat) (inside : i < l.length) : l[i]?.any p = p l[i] := by rw [List.getElem?_eq_getElem inside, Option.any_some]
  have stays : ∀ i j, i ≤ j → j < k → l[i]?.any p = true → l[j]?.any p = true := by
    intro i j order below holds
    rw [at_ i (by omega)] at holds
    rw [at_ j (by omega)]
    cases Nat.lt_or_eq_of_le order with
    | inr same =>
      subst same
      exact holds
    | inl before =>
      have kept :=
        List.pairwise_iff_getElem.mp mono i j (by rw [List.length_take]; omega) (by rw [List.length_take]; omega) before
      rw [List.getElem_take, List.getElem_take] at kept
      exact kept holds
  have absent : ∀ i, k ≤ i → l[i]?.any p = false := by
    intro i above
    cases found : l[i]? with
    | none => rfl
    | some a => exact never a (List.mem_iff_getElem?.mpr ⟨i - k, by rw [List.getElem?_drop, Nat.add_sub_cancel' above, found]⟩)
  have bounds := climbLoop_bounds l.length (Nat.zero_le l.length) (Nat.zero_le k)
  rcases searchLoop_climb stays absent (Nat.le_of_eq (Nat.sub_zero _)) (Nat.zero_le _)
    (fun _ none_ => absurd none_ (Nat.not_lt_zero _))
    with ⟨all, missed⟩ | ⟨within, holds, before⟩
  · rw [search, all, List.getElem?_eq_none (Nat.le_refl _), eq_comm, List.find?_eq_none]
    intro a member
    obtain ⟨i, inside, rfl⟩ := List.mem_take_iff_getElem.mp member
    have none_ := missed i (by rw [climb] at inside; omega)
    rw [at_ i (by omega)] at none_
    simp [none_]
  · rw [search, List.getElem?_eq_getElem (by omega), eq_comm, List.find?_eq_some_iff_getElem]
    rw [at_ _ (by omega)] at holds
    refine ⟨holds, _, by rw [List.length_take, climb]; omega, List.getElem_take, fun j below => ?_⟩
    have missed := before j below
    rw [at_ j (by omega)] at missed
    rw [List.getElem_take, missed]
    rfl

theorem pairwise_or_eq {l : List α} {R : α → α → Prop} (apart : l.Pairwise R) (member : a ∈ l) (member' : b ∈ l) :
    a = b ∨ R a b ∨ R b a := by
  have related := List.pairwise_iff_getElem.mp apart
  obtain ⟨i, inside, rfl⟩ := List.getElem_of_mem member
  obtain ⟨j, inside', rfl⟩ := List.getElem_of_mem member'
  rcases Nat.lt_trichotomy i j with order | rfl | order
  · exact .inr (.inl (related i j inside inside' order))
  · exact .inl rfl
  · exact .inr (.inr (related j i inside' inside order))

end Hfdl.Indexed
