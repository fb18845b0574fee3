import Mathlib.Data.List.Basic

/-!
# Circular storage

A block of `size` cells read and written modulo `size`. `gap size i j` is the
number of forward steps from cell `i` to cell `j`; `window` reads `n` cells
circularly, `put` writes a list circularly, `slice` and `fill` are the straight
(`memcpy`-like) read and write.

* `slice_eq_window`, `fill_eq_put`, `fill_fill_eq_put`: a straight access that
  does not pass the end, or two of them split at the end, is the circular one.
* `window_put`: a list written behind a window of `n` cells extends the window
  by that list, as long as the two together fit in `size` cells.
* `gap_advance`, `gap_extend`: the arithmetic of moving either end.
-/
namespace Sighttpd.Circular

variable {α : Type}

theorem mod_wrap (size i : Nat) (h : i < 2 * size) : i % size = if i < size then i else i - size := by
  split
  · exact Nat.mod_eq_of_lt ‹_›
  · rw [Nat.mod_eq_sub_mod (by omega), Nat.mod_eq_of_lt (by omega)]

/-! ## Distances -/

def gap (size i j : Nat) : Nat := if i ≤ j then j - i else j + size - i

theorem gap_lt {size i j : Nat} (hi : i < size) (hj : j < size) : gap size i j < size := by
  unfold gap; split <;> omega

@[simp] theorem gap_self (size i : Nat) : gap size i i = 0 := by simp [gap]

theorem add_gap {size i j : Nat} (hi : i < size) (hj : j < size) : (i + gap size i j) % size = j := by
  unfold gap
  by_cases h : i ≤ j
  · rw [if_pos h, Nat.mod_eq_of_lt (by omega)]; omega
  · rw [if_neg h, show i + (j + size - i) = j + size by omega, Nat.add_mod_right,
      Nat.mod_eq_of_lt hj]

theorem gap_add {size i k : Nat} (hi : i < size) (hk : k < size) : gap size i ((i + k) % size) = k := by
  rw [mod_wrap _ _ (by omega)]
  unfold gap; split <;> split <;> omega

/-- The near end moves `k` steps towards the far end. -/
theorem gap_advance {size i j k : Nat} (hi : i < size) (hj : j < size) (hk : k ≤ gap size i j) :
    gap size ((i + k) % size) j = gap size i j - k := by
  have := gap_lt hi hj
  rw [mod_wrap _ _ (by omega)]
  unfold gap at *; split at * <;> split <;> split <;> omega

/-- The far end moves `k` steps on. -/
theorem gap_extend {size i j k : Nat} (hi : i < size) (hj : j < size)
    (hk : gap size i j + k < size) : gap size i ((j + k) % size) = gap size i j + k := by
  rw [mod_wrap _ _ (by omega)]
  unfold gap at *; split at * <;> split <;> split <;> omega

/-! ## Reading -/

def slice (data : Nat → α) (off n : Nat) : List α := (List.range n).map fun k => data (off + k)

def window (data : Nat → α) (size start n : Nat) : List α :=
  (List.range n).map fun k => data ((start + k) % size)

@[simp] theorem slice_length (data : Nat → α) (off n : Nat) : (slice data off n).length = n := by
  simp [slice]

@[simp] theorem window_length (data : Nat → α) (size start n : Nat) :
    (window data size start n).length = n := by simp [window]

@[simp] theorem window_zero (data : Nat → α) (size start : Nat) : window data size start 0 = [] := rfl

theorem slice_eq_window (data : Nat → α) {size off n : Nat} (h : off + n ≤ size) :
    slice data off n = window data size off n := by
  apply List.map_congr_left
  intro k hk
  simp only [List.mem_range] at hk
  rw [Nat.mod_eq_of_lt (by omega)]

theorem window_mod (data : Nat → α) (size start n : Nat) :
    window data size (start % size) n = window data size start n := by
  simp [window, Nat.mod_add_mod]

theorem window_append (data : Nat → α) (size start m n : Nat) :
    window data size start (m + n) =
      window data size start m ++ window data size ((start + m) % size) n := by
  rw [window_mod]
  simp only [window, List.range_add, List.map_append, List.map_map, List.append_cancel_left_eq]
  apply List.map_congr_left
  intro k _
  simp [Nat.add_assoc]

/-- Reading to the end and then from the start is reading circularly. -/
theorem slice_append_slice (data : Nat → α) {size off n : Nat} (ho : off ≤ size) (hn : size - off ≤ n)
    (h : n ≤ size) :
    slice data off (size - off) ++ slice data 0 (n - (size - off)) = window data size off n := by
  have e : n = (size - off) + (n - (size - off)) := by omega
  conv => rhs; rw [e, window_append]
  rw [slice_eq_window data (show off + (size - off) ≤ size by omega),
    slice_eq_window data (show 0 + (n - (size - off)) ≤ size by omega)]
  congr 2
  rw [show off + (size - off) = size by omega, Nat.mod_self]

theorem take_window (data : Nat → α) {size start k n : Nat} (h : k ≤ n) :
    (window data size start n).take k = window data size start k := by
  obtain ⟨m, rfl⟩ : ∃ m, n = k + m := ⟨n - k, by omega⟩
  rw [window_append, List.take_left' (window_length ..)]

theorem drop_window (data : Nat → α) {size start k n : Nat} (h : k ≤ n) :
    (window data size start n).drop k = window data size ((start + k) % size) (n - k) := by
  obtain ⟨m, rfl⟩ : ∃ m, n = k + m := ⟨n - k, by omega⟩
  rw [window_append, List.drop_left' (window_length ..), Nat.add_sub_cancel_left]

/-! ## Writing -/

/-- The cells from `off` on overwritten by `src`. -/
def fill (data : Nat → α) (off : Nat) (src : List α) : Nat → α := fun i =>
  if off ≤ i then (src[i - off]?).getD (data i) else data i

def put (data : Nat → α) (size start : Nat) (src : List α) : Nat → α := fun i =>
  if i < size then (src[gap size start i]?).getD (data i) else data i

theorem getD_length_le {src : List α} {i : Nat} (h : src.length ≤ i) (d : α) :
    (src[i]?).getD d = d := by
  rw [List.getElem?_eq_none h]; rfl

theorem fill_eq_put (data : Nat → α) {size start : Nat} {src : List α}
    (h : start + src.length ≤ size) : fill data start src = put data size start src := by
  funext i
  unfold fill put gap
  by_cases hi : i < size
  · by_cases hs : start ≤ i
    · simp only [hi, hs, if_true]
    · rw [if_neg hs, if_pos hi, if_neg hs, getD_length_le (by omega)]
  · rw [if_neg hi]
    split
    · rw [getD_length_le (by omega)]
    · rfl

theorem fill_fill_eq_put (data : Nat → α) {size start : Nat} {src : List α} (hs : start < size)
    (h : src.length ≤ size) :
    fill (fill data start (src.take (size - start))) 0 (src.drop (size - start)) =
      put data size start src := by
  funext i
  unfold fill put gap
  simp only [Nat.zero_le, if_true, Nat.sub_zero, List.getElem?_drop, List.getElem?_take]
  by_cases hi : i < size
  · rw [if_pos hi]
    by_cases hsi : start ≤ i
    · rw [if_pos hsi, if_pos hsi, if_pos (by omega), getD_length_le (by omega)]
    · rw [if_neg hsi, if_neg hsi, show size - start + i = i + size - start by omega]
  · rw [if_neg hi, getD_length_le (by omega), if_pos (by omega), if_neg (by omega)]
    rfl

/-- Two pieces stored one behind the other. -/
theorem fill_fill (data : Nat → α) (start : Nat) (xs ys : List α) :
    fill (fill data start xs) (start + xs.length) ys = fill data start (xs ++ ys) := by
  funext i
  unfold fill
  by_cases hs : start ≤ i
  · rw [if_pos hs, if_pos hs]
    by_cases hx : start + xs.length ≤ i
    · rw [if_pos hx, List.getElem?_append_right (by omega), getD_length_le (by omega : xs.length ≤ i - start),
        show i - (start + xs.length) = i - start - xs.length by omega]
    · rw [if_neg hx, List.getElem?_append_left (by omega)]
  · rw [if_neg hs, if_neg (by omega), if_neg hs]

/-- A window that ends where the write begins is not touched by it. -/
theorem window_put_before (data : Nat → α) {size start n : Nat} {src : List α} (hs : start < size)
    (h : n + src.length ≤ size) :
    window (put data size ((start + n) % size) src) size start n = window data size start n := by
  apply List.map_congr_left
  intro k hk
  simp only [List.mem_range] at hk
  unfold put
  rw [if_pos (Nat.mod_lt _ (by omega)), getD_length_le]
  rw [mod_wrap _ _ (by omega), mod_wrap _ _ (by omega)]
  unfold gap; split <;> split <;> split <;> omega

theorem window_put_self (data : Nat → α) {size start : Nat} {src : List α} (hs : start < size)
    (h : src.length ≤ size) : window (put data size start src) size start src.length = src := by
  apply List.ext_getElem (by simp)
  intro k hk hk'
  simp only [window, List.getElem_map, List.getElem_range]
  unfold put
  rw [if_pos (Nat.mod_lt _ (by omega)), gap_add hs (by omega), List.getElem?_eq_getElem hk']
  rfl

/-- **Append.** Writing behind a window extends it. -/
theorem window_put (data : Nat → α) {size start n : Nat} {src : List α} (hs : start < size)
    (h : n + src.length ≤ size) :
    window (put data size ((start + n) % size) src) size start (n + src.length) =
      window data size start n ++ src := by
  rw [window_append, window_put_before data hs h,
    window_put_self data (Nat.mod_lt _ (by omega)) (by omega)]

end Sighttpd.Circular
