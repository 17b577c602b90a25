import CellularCoprocessor.Automaton.Pattern
import CellularCoprocessor.Proofs.Automaton.Boards
import Mathlib

/-!
# Neighbours on the torus

Around a place lie the eight others that differ from it by at most one in column and in row. A count
of neighbours visits each of them once. Adjacency is symmetric, so over the whole torus every live
cell is counted by eight others.
-/

namespace CellularCoprocessor.Automaton.Life

instance : NeZero side := ⟨by decide⟩

/-- A column and a row. -/
abbrev Place := ZMod side × ZMod side

/-- Coordinates wrap around. -/
def place (x y : Nat) : Place := (x, y)

def position (p : Place) : Nat :=
  side * p.2.val + p.1.val

def livePlaces (s : UInt64) : Finset Place :=
  Finset.univ.filter fun p => s.toNat.testBit (position p)

/-- What a coordinate and that of a neighbour may differ by. -/
def near : Finset (ZMod side) := {-1, 0, 1}

def Adjacent (p q : Place) : Prop :=
  q ≠ p ∧ q.1 - p.1 ∈ near ∧ q.2 - p.2 ∈ near

instance (p q : Place) : Decidable (Adjacent p q) :=
  inferInstanceAs (Decidable (_ ∧ _ ∧ _))

def neighbours (p : Place) : Finset Place :=
  Finset.univ.filter (Adjacent p)

theorem mem_livePlaces_iff {s : UInt64} {p : Place} :
    p ∈ livePlaces s ↔ s.toNat.testBit (position p) := by
  rw [livePlaces, Finset.mem_filter_univ]

theorem mem_neighbours_iff {p q : Place} : q ∈ neighbours p ↔ Adjacent p q := by
  rw [neighbours, Finset.mem_filter_univ]

theorem Adjacent.symm {p q : Place} (h : Adjacent p q) : Adjacent q p := by
  have hNear : ∀ a b : ZMod side, a - b ∈ near → b - a ∈ near := by
    intro a b hab
    have hNeg : ∀ c ∈ near, -c ∈ near := by decide
    rw [← neg_sub]
    exact hNeg _ hab
  obtain ⟨hne, hColumn, hRow⟩ := h
  exact ⟨hne.symm, hNear _ _ hColumn, hNear _ _ hRow⟩

theorem adjacent_comm {p q : Place} : Adjacent p q ↔ Adjacent q p :=
  ⟨Adjacent.symm, Adjacent.symm⟩

section Positions

theorem position_lt (p : Place) : position p < 64 := by
  have hColumn : p.1.val < 8 := p.1.val_lt
  have hRow : p.2.val < 8 := p.2.val_lt
  change 8 * p.2.val + p.1.val < 64
  omega

theorem position_place (x y : Nat) : position (place x y) = side * (y % side) + x % side := by
  rw [position, place, ZMod.val_natCast, ZMod.val_natCast]

theorem place_position (p : Place) : place (position p) (position p / side) = p := by
  have hColumn : (position p : ZMod side) = p.1 := by
    rw [position, Nat.cast_add, Nat.cast_mul, ZMod.natCast_self, zero_mul, zero_add,
      ZMod.natCast_zmod_val]
  have hRow : position p / side = p.2.val := by
    rw [position, Nat.mul_add_div (NeZero.pos side), Nat.div_eq_of_lt p.1.val_lt, Nat.add_zero]
  rw [place, hColumn, hRow, ZMod.natCast_zmod_val]

theorem place_add (x y u v : Nat) : place (x + u) (y + v) = place x y + place u v := by
  rw [place, place, place, Prod.mk_add_mk, Nat.cast_add, Nat.cast_add]

theorem toNat_coordinate {n : Nat} (hn : n ∈ Finset.range side) : (n : Coordinate).toNat = n :=
  UInt32.toNat_ofNat_of_lt' (Nat.lt_trans (Finset.mem_range.mp hn) (by decide))

theorem cell_position (s : UInt64) (p : Place) : cell s (position p) ↔ p ∈ livePlaces s := by
  rw [mem_livePlaces_iff, cell_eq_testBit (position_lt p)]

theorem cellAt_iff_mem (s : UInt64) (x y : Nat) : cellAt s x y ↔ place x y ∈ livePlaces s := by
  rw [← cell_position, position_place, cellAt, Nat.mul_comm]

/-- A sum over the coordinates of all cells is one over all places. -/
theorem sum_place (f : Place → Nat) :
    ∑ y ∈ Finset.range side, ∑ x ∈ Finset.range side, f (place x y) = ∑ p, f p := by
  have hResidues : ∀ g : ZMod side → Nat, ∑ n ∈ Finset.range side, g n = ∑ a, g a := by
    intro g
    apply Finset.sum_nbij' (fun n : Nat => (n : ZMod side)) (fun a : ZMod side => a.val)
    · exact fun n _ => Finset.mem_univ _
    · exact fun a _ => Finset.mem_range.mpr a.val_lt
    · exact fun n hn => ZMod.val_cast_of_lt (Finset.mem_range.mp hn)
    · exact fun a _ => ZMod.natCast_zmod_val a
    · exact fun n _ => rfl
  rw [Fintype.sum_prod_type_right, ← hResidues]
  apply Finset.sum_congr rfl
  intro y _
  exact hResidues fun a => f (a, y)

theorem population_eq_card (s : UInt64) : population s = (livePlaces s).card := by
  have hPositions : ∀ i < 64, position (place i (i / side)) = i := by
    intro i hi
    rw [position_place, side]
    omega
  calc (List.range 64).countP (cell s)
      = ((Finset.range 64).filter fun i => cell s i).card := by
        rw [← List.toFinset_range, List.nodup_range.card_eq_countP]
        simp only [Bool.decide_eq_true]
    _ = (livePlaces s).card := by
        apply Finset.card_nbij' (fun i => place i (i / side)) position
        · intro i hi
          obtain ⟨hi, hCell⟩ := Finset.mem_filter.mp hi
          rw [← hPositions i (Finset.mem_range.mp hi)] at hCell
          exact (cell_position s _).mp hCell
        · intro p hp
          exact Finset.mem_filter.mpr
            ⟨Finset.mem_range.mpr (position_lt p), (cell_position s p).mpr hp⟩
        · intro i hi
          exact hPositions i (Finset.mem_range.mp (Finset.mem_filter.mp hi).1)
        · exact fun p _ => place_position p

end Positions

section Visited

/-- The places that a count around `p` visits, in this order. -/
def visited (p : Place) : List Place :=
  stepNumbers.map fun d => p + place d.1 d.2

/-- As residues the steps are the differences of neighbours: seven is one back. -/
theorem mem_steps_iff (d : Place) :
    d ∈ stepNumbers.map (fun d => place d.1 d.2) ↔ d ≠ 0 ∧ d.1 ∈ near ∧ d.2 ∈ near := by
  -- Only the 64 differences are tried; the place and the word stay arbitrary.
  revert d
  decide

theorem mem_visited_iff {p q : Place} : q ∈ visited p ↔ Adjacent p q := by
  have hShift : q ∈ visited p ↔ q - p ∈ stepNumbers.map fun d => place d.1 d.2 := by
    simp only [visited, List.mem_map, eq_sub_iff_add_eq']
  rw [hShift, mem_steps_iff, sub_ne_zero]
  rfl

theorem nodup_visited (p : Place) : (visited p).Nodup := by
  have hSteps : (stepNumbers.map fun d => place d.1 d.2).Nodup := by decide
  have hShift := hSteps.map (add_right_injective p)
  rwa [List.map_map] at hShift

theorem toFinset_visited (p : Place) : (visited p).toFinset = neighbours p := by
  ext q
  rw [List.mem_toFinset, mem_visited_iff, mem_neighbours_iff]

theorem card_neighbours (p : Place) : (neighbours p).card = 8 := by
  rw [← toFinset_visited, List.toFinset_card_of_nodup (nodup_visited p), visited, List.length_map]
  rfl

theorem countAround_eq_card (s : UInt64) (x y : Nat) :
    countAround s x y = (neighbours (place x y) ∩ livePlaces s).card := by
  calc stepNumbers.countP (fun d => cellAt s (x + d.1) (y + d.2))
      = (visited (place x y)).countP (· ∈ livePlaces s) := by
        rw [visited, List.countP_map]
        apply List.countP_congr
        intro d _
        rw [cellAt_iff_mem, place_add, Function.comp_apply, decide_eq_true_iff]
    _ = (neighbours (place x y) ∩ livePlaces s).card := by
        rw [← (nodup_visited _).card_eq_countP, toFinset_visited, Finset.filter_mem_eq_inter]

theorem neighbourCount_eq_card (s : UInt64) (x y : Coordinate) :
    neighbourCount s x y = (neighbours (place x.toNat y.toNat) ∩ livePlaces s).card := by
  rw [neighbourCount_eq, countAround_eq_card]

/-- The opposite corner is a neighbour of the corner, which is none of itself. From the last
coordinate the step to the next one wraps. -/
example : neighbourCount 0x8000000000000000 0 0 = 1 ∧ neighbourCount 1 0 0 = 0 ∧
    neighbourCount 1 0xFFFFFFFF 0xFFFFFFFF = 1 := by decide

end Visited

/-- The pairs of a place and a neighbour in the set, counted from the side of the neighbour. -/
theorem sum_card_neighbours (t : Finset Place) :
    ∑ p, (neighbours p ∩ t).card = 8 * t.card := by
  calc ∑ p, (neighbours p ∩ t).card
      = ∑ p, (t.bipartiteAbove Adjacent p).card := by
        apply Finset.sum_congr rfl
        intro p _
        rw [Finset.bipartiteAbove, neighbours, Finset.filter_inter, Finset.univ_inter]
    _ = ∑ q ∈ t, (Finset.univ.bipartiteBelow Adjacent q).card :=
        Finset.sum_card_bipartiteAbove_eq_sum_card_bipartiteBelow Adjacent
    _ = ∑ q ∈ t, (neighbours q).card := by
        apply Finset.sum_congr rfl
        intro q _
        rw [Finset.bipartiteBelow, neighbours]
        congr 1
        ext p
        rw [Finset.mem_filter_univ, Finset.mem_filter_univ]
        exact adjacent_comm
    _ = 8 * t.card := by
        simp only [card_neighbours]
        rw [Finset.sum_const, smul_eq_mul, Nat.mul_comm]

/-- A count gives the live cells among the neighbours of a place, which are eight others, wherever
its coordinates lie. As adjacency is symmetric, all counts together find every live cell eight
times. -/
theorem neighbours_counted_once :
    (∀ s (x y : Coordinate),
      neighbourCount s x y = (neighbours (place x.toNat y.toNat) ∩ livePlaces s).card) ∧
    (∀ p, (neighbours p).card = 8) ∧
    (∀ p q, Adjacent p q ↔ Adjacent q p) ∧
    ∀ s, ∑ y ∈ Finset.range side, ∑ x ∈ Finset.range side, neighbourCount s x y =
      8 * population s := by
  refine ⟨neighbourCount_eq_card, card_neighbours, fun p q => adjacent_comm, ?_⟩
  intro s
  have hCount : ∀ y ∈ Finset.range side, ∀ x ∈ Finset.range side,
      neighbourCount s x y = (neighbours (place x y) ∩ livePlaces s).card := by
    intro y hy x hx
    rw [neighbourCount_eq_card, toNat_coordinate hx, toNat_coordinate hy]
  rw [Finset.sum_congr rfl fun y hy => Finset.sum_congr rfl (hCount y hy),
    sum_place fun p => (neighbours p ∩ livePlaces s).card, sum_card_neighbours,
    population_eq_card]

end CellularCoprocessor.Automaton.Life
