import MipsElfExec.Avllib.Delete
import MipsElfExec.Avllib.Erase

/-! What the trees of avlLib stand for: under every root a list of nodes in the order of their keys, and beside them
the nodes that the callers hold themselves. A change of one tree leaves the others as they are. -/
namespace MipsElfExec.Avllib
open Access Avl

variable {ρ δ κ : Type}

-- compare is negative where the key given is less than the key of the node.
structure Ranks (compare : δ → κ → Int) (key : δ → κ) (order : κ → κ → Ordering) : Prop where
  equal : ∀ d k,compare d k = 0 ↔ order k (key d) = .eq
  less : ∀ d k,compare d k < 0 ↔ order k (key d) = .lt

structure Shelf (ρ δ : Type) where
  tree : ρ → List (Addr × δ)
  loose : Addr → Option δ
  allocs : Int

def keyOf (key : δ → κ) (x : Addr × δ) : κ := key x.2

def Sorted (key : δ → κ) (order : κ → κ → Ordering) (S : Shelf ρ δ) : Prop :=
  ∀ r,Ascending (keyOf key) order (S.tree r)

def Stands (m : Memory ρ δ) (r : ρ) (xs : List (Addr × δ)) : Prop := ∃ t,Rooted m r t ∧ t.Balanced ∧ t.toList = xs

structure Represents (m : Memory ρ δ) (S : Shelf ρ δ) : Prop where
  stands : ∀ r,Stands m r (S.tree r)
  apart : ∀ {q r a},a ∈ addrs (S.tree q) → a ∈ addrs (S.tree r) → q = r
  loose : ∀ {a d},S.loose a = some d → (∃ n,m.node a = some n ∧ n.data = d) ∧ ∀ r,a ∉ addrs (S.tree r)
  allocs : m.allocs = S.allocs

section sides
variable {compare : δ → κ → Int} {key : δ → κ} {order : κ → κ → Ordering}

theorem towardSide (ranks : Ranks compare key order) (k : κ) : toward compare k = sideOf (keyOf key) order k := by
  funext x
  have equal := ranks.equal x.2 k
  have less := ranks.less x.2 k
  unfold toward sideOf keyOf
  cases side : order k (key x.2) with
  | eq => rw [if_pos (equal.mpr side)]
  | lt => rw [if_neg fun same => (by cases side.symm.trans (equal.mp same)),if_pos (less.mpr side)]
  | gt =>
    rw [if_neg fun same => (by cases side.symm.trans (equal.mp same)),if_neg fun low => (by cases side.symm.trans (less.mp low))]

end sides

section change
variable [DecidableEq ρ] {m m' : Memory ρ δ} {S : Shelf ρ δ} {r : ρ} {xs : List (Addr × δ)} {own : List Addr}

def Shelf.change (S : Shelf ρ δ) (r : ρ) (xs : List (Addr × δ)) (loose : Addr → Option δ) (allocs : Int) : Shelf ρ δ :=
  ⟨fun q => if q = r then xs else S.tree q,loose,allocs⟩

@[simp] theorem changeTree {loose : Addr → Option δ} {n : Int} : (S.change r xs loose n).tree r = xs := if_pos rfl

theorem changeOther {loose : Addr → Option δ} {n : Int} {q : ρ} (other : q ≠ r) :
    (S.change r xs loose n).tree q = S.tree q := if_neg other

theorem changeRepresents {loose : Addr → Option δ} (own : List Addr) (rep : Represents m S) (stands : Stands m' r xs)
    (root : ∀ q,q ≠ r → m'.root q = m.root q) (node : ∀ a,a ∉ own → m'.node a = m.node a)
    (own_ : ∀ a ∈ own,a ∈ addrs (S.tree r) ∨ S.loose a ≠ none) (listed : ∀ a ∈ addrs xs,a ∈ own)
    (after : ∀ {a d},loose a = some d → (∃ n,m'.node a = some n ∧ n.data = d) ∧ a ∉ addrs xs ∧
      (a ∈ addrs (S.tree r) ∨ S.loose a ≠ none)) : Represents m' (S.change r xs loose m'.allocs) := by
  have outside {q : ρ} (other : q ≠ r) {a : Addr} (mem : a ∈ addrs (S.tree q)) : ¬(a ∈ addrs (S.tree r) ∨ S.loose a ≠ none) := by
    rintro (inside | held)
    · exact other (rep.apart mem inside)
    · obtain ⟨d,held⟩ := Option.ne_none_iff_exists'.mp held
      exact (rep.loose held).2 q mem
  refine ⟨fun q => ?_,fun {q s a} first second => ?_,fun {a d} held => ?_,rfl⟩
  · by_cases same : q = r
    · subst same
      rwa [changeTree]
    · rw [changeOther same]
      obtain ⟨t,rooted,balanced,list⟩ := rep.stands q
      refine ⟨t,rootedCongr rooted (root q same) fun a mem => node a fun mine => ?_,balanced,list⟩
      rw [list] at mem
      exact outside same mem (own_ a mine)
  · by_cases left : q = r
    · by_cases right : s = r
      · exact left.trans right.symm
      · subst left
        rw [changeTree] at first
        rw [changeOther right] at second
        exact absurd (own_ a (listed a first)) (outside right second)
    · by_cases right : s = r
      · subst right
        rw [changeTree] at second
        rw [changeOther left] at first
        exact absurd (own_ a (listed a second)) (outside left first)
      · rw [changeOther left] at first
        rw [changeOther right] at second
        exact rep.apart first second
  · obtain ⟨there,out,inside⟩ := after held
    refine ⟨there,fun q mem => ?_⟩
    by_cases same : q = r
    · subst same
      rw [changeTree] at mem
      exact out mem
    · rw [changeOther same] at mem
      exact outside same mem inside

end change

end MipsElfExec.Avllib
