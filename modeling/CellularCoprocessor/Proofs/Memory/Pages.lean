import CellularCoprocessor.Memory.Paged

/-!
# The pages of a memory

Writes and reads go page after page. What they store and find is the byte of each address, wherever
the pages begin, and a write leaves the pages of the bytes it stores and no others.
-/

namespace CellularCoprocessor.Memory

theorem toNat_add_ofNat {a : UInt64} {n : Nat} (h : a.toNat + n < UInt64.size) :
    (a + UInt64.ofNat n).toNat = a.toNat + n := by
  rw [UInt64.toNat_add, UInt64.toNat_ofNat', Nat.add_mod_mod]
  exact Nat.mod_eq_of_lt h

theorem toNat_eq_page_add_offset (a : UInt64) :
    a.toNat = pageSize * pageNumber a + pageOffset a :=
  (Nat.div_add_mod a.toNat pageSize).symm

/-- The bytes up to the end of the page of an address have that page. -/
theorem add_of_lt_pageRoom {a : UInt64} {i : Nat} (h : i < pageRoom a) :
    pageNumber (a + UInt64.ofNat i) = pageNumber a ∧
      (pageOffset (a + UInt64.ofNat i) : Nat) = pageOffset a + i := by
  have hAddress := a.toNat_lt
  simp only [pageRoom, pageOffset, pageNumber, pageSize] at h ⊢
  rw [toNat_add_ofNat (by simp only [UInt64.size]; omega)]
  omega

theorem add_pageRoom_le (a : UInt64) : a.toNat + pageRoom a ≤ UInt64.size := by
  have hAddress := a.toNat_lt
  simp only [pageRoom, pageOffset, pageSize, UInt64.size]
  omega

theorem length_take_pageRoom_le (a : UInt64) (bs : List UInt8) :
    (bs.take (min bs.length (pageRoom a))).length ≤ pageRoom a := by
  rw [List.length_take_of_le (Nat.min_le_left _ _)]
  exact Nat.min_le_right _ _

section Pages

def pageAt (m : Memory) (n : Nat) : Page :=
  m.pages[n]?.getD blankPage

theorem readByte_eq (m : Memory) (a : UInt64) :
    m.readByte a = (m.pageAt (pageNumber a)).get (pageOffset a) := by
  rw [readByte, pageAt]
  cases m.pages[pageNumber a]? with
  | some page => rfl
  | none => exact (Vector.getElem_replicate _).symm

theorem getElem_overlay (page : Page) (offset : Nat) (bs : List UInt8) {i : Nat}
    (hi : i < pageSize) :
    (overlay page offset bs)[i] =
      if offset ≤ i then (bs[i - offset]?).getD page[i] else page[i] := by
  induction bs generalizing page offset with
  | nil => simp [overlay]
  | cons b bs ih =>
    rw [overlay, ih, Vector.getElem_setIfInBounds]
    rcases Nat.lt_trichotomy i offset with hLess | hEq | hMore
    · rw [if_neg (by omega), if_neg (by omega), if_neg (by omega)]
    · subst hEq
      rw [if_neg (by omega), if_pos rfl, if_pos (Nat.le_refl i), Nat.sub_self]
      rfl
    · have hIndex : i - offset = i - (offset + 1) + 1 := by omega
      rw [if_pos (by omega), if_neg (by omega), if_pos (by omega), hIndex, List.getElem?_cons_succ]

theorem get_overlay (page : Page) (offset : Nat) (bs : List UInt8) (i : Fin pageSize) :
    (overlay page offset bs).get i =
      if offset ≤ i then (bs[i - offset]?).getD (page.get i) else page.get i :=
  getElem_overlay page offset bs i.isLt

theorem pageAt_putPiece (m : Memory) (a : UInt64) (bs : List UInt8) (n : Nat) :
    (m.putPiece a bs).pageAt n =
      if pageNumber a = n then overlay (m.pageAt n) (pageOffset a) bs else m.pageAt n := by
  simp only [pageAt, putPiece, Std.TreeMap.getElem?_alter, Std.compare_eq_iff_eq]
  split
  · rename_i hSame
    rw [hSame, Option.getD_some]
  · rfl

theorem readByte_putPiece (m : Memory) (a b : UInt64) {bs : List UInt8}
    (hFits : bs.length ≤ pageRoom a) :
    (m.putPiece a bs).readByte b =
      if a.toNat ≤ b.toNat then (bs[b.toNat - a.toNat]?).getD (m.readByte b) else m.readByte b := by
  have ha := toNat_eq_page_add_offset a
  have hb := toNat_eq_page_add_offset b
  rw [readByte_eq, readByte_eq, pageAt_putPiece]
  by_cases hPage : pageNumber a = pageNumber b
  · rw [hPage] at ha
    have hIndex : b.toNat - a.toNat = pageOffset b - pageOffset a := by omega
    rw [if_pos hPage, get_overlay, hIndex]
    by_cases hLe : a.toNat ≤ b.toNat
    · rw [if_pos hLe, if_pos (by omega)]
    · rw [if_neg hLe, if_neg (by omega)]
  · rw [if_neg hPage]
    split
    · -- The other page begins after the last byte.
      have hPast : bs.length ≤ b.toNat - a.toNat := by
        simp only [pageRoom, pageNumber, pageOffset, pageSize] at *
        omega
      rw [List.getElem?_eq_none hPast, Option.getD_none]
    · rfl

theorem mem_pages_putPiece {m : Memory} {a : UInt64} {bs : List UInt8} {n : Nat} :
    n ∈ (m.putPiece a bs).pages ↔ pageNumber a = n ∨ n ∈ m.pages := by
  rw [putPiece, Std.TreeMap.mem_alter]
  by_cases hPage : pageNumber a = n <;> simp [hPage]

theorem readPiece_eq_map (m : Memory) (a : UInt64) {n : Nat} (h : n ≤ pageRoom a) :
    m.readPiece a n = (List.range n).map fun i => m.readByte (a + UInt64.ofNat i) := by
  have hEnd : min (pageOffset a + n) pageSize - pageOffset a = n := by
    rw [pageRoom] at h
    omega
  have hPiece : m.readPiece a n =
      ((m.pageAt (pageNumber a)).extract (pageOffset a) (pageOffset a + n)).toList := by
    rw [readPiece, pageAt]
    cases m.pages[pageNumber a]? with
    | some page => rfl
    | none => simp [blankPage, hEnd]
  rw [hPiece]
  apply List.ext_getElem
  · simp [hEnd]
  · intro i hLeft hRight
    rw [List.length_map, List.length_range] at hRight
    obtain ⟨hPage, hOffset⟩ := add_of_lt_pageRoom (Nat.lt_of_lt_of_le hRight h)
    rw [List.getElem_map, List.getElem_range, readByte_eq, hPage, Vector.getElem_toList,
      Vector.getElem_extract]
    exact getElem_congr_idx hOffset.symm

end Pages

/-- The bytes of a write, each with its address. -/
def placed (a : UInt64) : List UInt8 → List (UInt64 × UInt8)
  | [] => []
  | b :: bs => (a, b) :: placed (a + 1) bs

theorem add_ofNat_succ (a : UInt64) (n : Nat) : a + 1 + UInt64.ofNat n = a + UInt64.ofNat (n + 1) := by
  rw [UInt64.ofNat_add, UInt64.add_assoc, UInt64.add_comm 1]
  rfl

theorem placed_append (a : UInt64) (bs cs : List UInt8) :
    placed a (bs ++ cs) = placed a bs ++ placed (a + UInt64.ofNat bs.length) cs := by
  induction bs generalizing a with
  | nil => simp [placed]
  | cons b bs ih =>
    rw [List.cons_append, placed, ih, placed, List.cons_append, List.length_cons, add_ofNat_succ]

theorem length_placed (a : UInt64) (bs : List UInt8) : (placed a bs).length = bs.length := by
  induction bs generalizing a with
  | nil => rfl
  | cons b bs ih => rw [placed, List.length_cons, ih, List.length_cons]

theorem exists_of_mem_placed {a : UInt64} {bs : List UInt8} {x : UInt64 × UInt8}
    (h : x ∈ placed a bs) : ∃ i < bs.length, x.1 = a + UInt64.ofNat i := by
  induction bs generalizing a with
  | nil => cases h
  | cons b bs ih =>
    rcases List.mem_cons.mp h with rfl | hRest
    · exact ⟨0, Nat.zero_lt_succ _, by simp⟩
    · obtain ⟨i, hi, hx⟩ := ih hRest
      exact ⟨i + 1, Nat.succ_lt_succ hi, by rw [hx, add_ofNat_succ]⟩

theorem lookup_placed {a : UInt64} {bs : List UInt8} (hFits : a.toNat + bs.length ≤ UInt64.size)
    (b : UInt64) :
    (placed a bs).reverse.lookup b =
      if a.toNat ≤ b.toNat then bs[b.toNat - a.toNat]? else none := by
  induction bs generalizing a with
  | nil => simp [placed]
  | cons x bs ih =>
    rw [List.length_cons] at hFits
    -- The address after the last byte may wrap, but nothing is stored there.
    have hRest : (placed (a + 1) bs).reverse.lookup b =
        if a.toNat + 1 ≤ b.toNat then bs[b.toNat - (a.toNat + 1)]? else none := by
      cases bs with
      | nil => simp [placed]
      | cons y bs =>
        rw [List.length_cons] at hFits
        have hNext : (a + 1).toNat = a.toNat + 1 := toNat_add_ofNat (n := 1) (by omega)
        rw [ih (by rw [hNext, List.length_cons]; omega), hNext]
    have hOther : b.toNat ≠ a.toNat → (b == a) = false := by
      intro hNe
      rw [beq_eq_false_iff_ne]
      exact fun hEq => hNe (congrArg UInt64.toNat hEq)
    rw [placed, List.reverse_cons, List.lookup_append, hRest, List.lookup_cons, List.lookup_nil]
    rcases Nat.lt_trichotomy b.toNat a.toNat with hLess | hEq | hMore
    · rw [if_neg (by omega), if_neg (by omega), hOther (by omega)]
      rfl
    · have hSame : b = a := UInt64.toNat_inj.mp hEq
      subst hSame
      rw [if_neg (Nat.not_succ_le_self _)]
      simp
    · have hIndex : b.toNat - a.toNat = b.toNat - (a.toNat + 1) + 1 := by omega
      rw [if_pos (by omega), if_pos (by omega), hOther (by omega), hIndex,
        List.getElem?_cons_succ]
      exact Option.or_none

theorem getD_lookup_placed {a : UInt64} {bs : List UInt8}
    (hFits : a.toNat + bs.length ≤ UInt64.size) (b : UInt64) (x : UInt8) :
    ((placed a bs).reverse.lookup b).getD x =
      if a.toNat ≤ b.toNat then (bs[b.toNat - a.toNat]?).getD x else x := by
  rw [lookup_placed hFits]
  split <;> rfl

theorem placed_take_drop (a : UInt64) {bs : List UInt8} {n : Nat} (h : n ≤ bs.length) :
    placed a bs = placed a (bs.take n) ++ placed (a + UInt64.ofNat n) (bs.drop n) := by
  have hPlaced := placed_append a (bs.take n) (bs.drop n)
  rwa [List.take_append_drop, List.length_take_of_le h] at hPlaced

theorem exists_placed_pageNumber {a : UInt64} {bs : List UInt8} {n : Nat} (hBytes : bs ≠ [])
    (hFits : bs.length ≤ pageRoom a) :
    (∃ x ∈ placed a bs, pageNumber x.1 = n) ↔ pageNumber a = n := by
  constructor
  · rintro ⟨x, hPlaced, rfl⟩
    obtain ⟨i, hi, hx⟩ := exists_of_mem_placed hPlaced
    rw [hx]
    exact (add_of_lt_pageRoom (Nat.lt_of_lt_of_le hi hFits)).1.symm
  · intro hPage
    obtain ⟨b, bs, rfl⟩ := List.exists_cons_of_ne_nil hBytes
    exact ⟨(a, b), List.mem_cons_self, hPage⟩

/-- Storing bytes page after page stores each of them at its address, the later ones last. -/
theorem readByte_putBytes_eq_lookup (m : Memory) (a : UInt64) (bs : List UInt8) (b : UInt64) :
    (m.putBytes a bs).readByte b = ((placed a bs).reverse.lookup b).getD (m.readByte b) := by
  induction m, a, bs using putBytes.induct with
  | case1 m a => simp [putBytes, placed]
  | case2 m a bs hBytes n ih =>
    have hLength : n ≤ bs.length := Nat.min_le_left _ _
    have hFits : (bs.take n).length ≤ pageRoom a := length_take_pageRoom_le a bs
    have hEnd : a.toNat + (bs.take n).length ≤ UInt64.size :=
      Nat.le_trans (Nat.add_le_add_left hFits _) (add_pageRoom_le a)
    have hPiece : (m.putPiece a (bs.take n)).readByte b =
        ((placed a (bs.take n)).reverse.lookup b).getD (m.readByte b) := by
      rw [readByte_putPiece m a b hFits, getD_lookup_placed hEnd]
    rw [putBytes, if_neg hBytes, ih, hPiece, placed_take_drop a hLength, List.reverse_append,
      List.lookup_append, Option.getD_or]

theorem readByte_putBytes (m : Memory) (a b : UInt64) (bs : List UInt8)
    (hFits : a.toNat + bs.length ≤ UInt64.size) :
    (m.putBytes a bs).readByte b =
      if a.toNat ≤ b.toNat then (bs[b.toNat - a.toNat]?).getD (m.readByte b) else m.readByte b := by
  rw [readByte_putBytes_eq_lookup, getD_lookup_placed hFits]

/-- The pages that a write leaves are the old ones and those of its bytes. -/
theorem mem_pages_putBytes {m : Memory} {a : UInt64} {bs : List UInt8} {n : Nat} :
    n ∈ (m.putBytes a bs).pages ↔ (∃ x ∈ placed a bs, pageNumber x.1 = n) ∨ n ∈ m.pages := by
  induction m, a, bs using putBytes.induct with
  | case1 m a => simp [putBytes, placed]
  | case2 m a bs hBytes count ih =>
    have hLength : count ≤ bs.length := Nat.min_le_left _ _
    have hRoom := pageRoom_pos a
    have hPositive := List.length_pos_iff.mpr hBytes
    have hFirst : bs.take count ≠ [] := by
      rw [← List.length_pos_iff, List.length_take_of_le hLength]
      omega
    have hFits : (bs.take count).length ≤ pageRoom a := length_take_pageRoom_le a bs
    rw [putBytes, if_neg hBytes, ih, mem_pages_putPiece, ← exists_placed_pageNumber hFirst hFits,
      placed_take_drop a hLength]
    simp only [List.mem_append, or_and_right, exists_or]
    rw [← or_assoc, or_comm (a := ∃ x ∈ placed (a + UInt64.ofNat count) _, _)]

theorem counters_putBytes (m : Memory) (a : UInt64) (bs : List UInt8) :
    (m.putBytes a bs).bytesWritten = m.bytesWritten ∧
      (m.putBytes a bs).bytesRead = m.bytesRead := by
  induction m, a, bs using putBytes.induct with
  | case1 m a =>
    rw [putBytes, if_pos rfl]
    exact ⟨rfl, rfl⟩
  | case2 m a bs hBytes count ih =>
    rw [putBytes, if_neg hBytes]
    exact ih

theorem readBytes_eq_map (m : Memory) (a : UInt64) (n : Nat) :
    m.readBytes a n = (List.range n).map fun i => m.readByte (a + UInt64.ofNat i) := by
  induction a, n using readBytes.induct with
  | case1 a => rw [readBytes, if_pos rfl, List.range_zero, List.map_nil]
  | case2 a n hBytes count ih =>
    have hSplit : List.range n = List.range count ++ (List.range (n - count)).map (count + ·) := by
      rw [← List.range_add, Nat.add_sub_cancel' (Nat.min_le_left _ _)]
    rw [readBytes, if_neg hBytes]
    change m.readPiece a count ++ m.readBytes (a + UInt64.ofNat count) (n - count) = _
    rw [readPiece_eq_map m a (n := count) (Nat.min_le_right _ _), ih, hSplit, List.map_append, List.map_map]
    simp only [Function.comp_def, UInt64.ofNat_add, UInt64.add_assoc]

end CellularCoprocessor.Memory
