import MipsElfExec.Lib.Avl
import Mathlib.Data.Nat.Fib.Basic

/-! Height-balanced trees with a place marked in them. The frames of a place are the nodes above it, the nearest
one first; what stands at the place may have become one higher or one lower, and the frames are then balanced anew
from the place up, as far as a height changes. -/
namespace MipsElfExec.Avl

variable {α : Type}

def Tree.Balanced : Tree α → Prop
  | .nil => True
  | .node l _ h r => l.Balanced ∧ r.Balanced ∧ h = max l.height r.height + 1 ∧
      l.height ≤ r.height + 1 ∧ r.height ≤ l.height + 1

def Tree.depth : Tree α → Nat
  | .nil => 0
  | .node l _ _ r => max l.depth r.depth + 1

@[simp] theorem heightNil : (Tree.nil : Tree α).height = 0 := rfl

@[simp] theorem heightNode (l : Tree α) (x : α) (h : Nat) (r : Tree α) : (Tree.node l x h r).height = h := rfl

section size
variable {t : Tree α}

theorem balancedDepth (balanced : t.Balanced) : t.depth = t.height := by
  induction t with
  | nil => rfl
  | node l x h r ihl ihr =>
    obtain ⟨left,right,height,-,-⟩ := balanced
    rw [Tree.depth,ihl left,ihr right,heightNode,height]

theorem heightBound (balanced : t.Balanced) : Nat.fib (t.height + 2) ≤ t.toList.length + 1 := by
  induction t with
  | nil => exact Nat.le_refl 1
  | node l x h r ihl ihr =>
    obtain ⟨left,right,height,lower,upper⟩ := balanced
    have more := ihl left
    have most := ihr right
    have step (n : Nat) : Nat.fib (n + 1 + 2) = Nat.fib (n + 1) + Nat.fib (n + 2) := Nat.fib_add_two
    rw [heightNode,height,step,Tree.toList,List.length_append,List.length_cons]
    rcases Nat.le_total l.height r.height with low | low
    · have below : Nat.fib (r.height + 1) ≤ Nat.fib (l.height + 2) := Nat.fib_mono (by omega)
      rw [Nat.max_eq_right low]
      omega
    · have below : Nat.fib (l.height + 1) ≤ Nat.fib (r.height + 2) := Nat.fib_mono (by omega)
      rw [Nat.max_eq_left low]
      omega

theorem heightBelow (balanced : t.Balanced) {h : Nat} (few : t.toList.length + 1 < Nat.fib (h + 3)) : t.height ≤ h := by
  by_contra high
  have bound := heightBound balanced
  have more : Nat.fib (h + 3) ≤ Nat.fib (t.height + 2) := Nat.fib_mono (by omega)
  omega

end size

inductive Frame (α : Type) where
  | left (value : α) (height : Nat) (right : Tree α)
  | right (left : Tree α) (value : α) (height : Nat)
  deriving DecidableEq, Repr

def Frame.value : Frame α → α
  | .left x _ _ => x
  | .right _ x _ => x

def Frame.height : Frame α → Nat
  | .left _ h _ => h
  | .right _ _ h => h

def Frame.sibling : Frame α → Tree α
  | .left _ _ r => r
  | .right l _ _ => l

def Frame.fill : Frame α → Tree α → Tree α
  | .left x h r,t => .node t x h r
  | .right l x h,t => .node l x h t

def plug : List (Frame α) → Tree α → Tree α
  | [],t => t
  | f :: fs,t => plug fs (f.fill t)

def ahead : List (Frame α) → List α
  | [] => []
  | .left _ _ _ :: fs => ahead fs
  | .right l x _ :: fs => ahead fs ++ (l.toList ++ [x])

def behind : List (Frame α) → List α
  | [] => []
  | .left x _ r :: fs => x :: r.toList ++ behind fs
  | .right _ _ _ :: fs => behind fs

def span : List (Frame α) → List α
  | [] => []
  | f :: fs => f.value :: f.sibling.toList ++ span fs

theorem plugAppend (fs gs : List (Frame α)) (t : Tree α) : plug (fs ++ gs) t = plug gs (plug fs t) := by
  induction fs generalizing t with
  | nil => rfl
  | cons f fs ih => exact ih (f.fill t)

theorem plugList (fs : List (Frame α)) (t : Tree α) : (plug fs t).toList = ahead fs ++ (t.toList ++ behind fs) := by
  induction fs generalizing t with
  | nil => simp [plug,ahead,behind]
  | cons f fs ih =>
    rw [plug,ih]
    cases f with
    | left x h r => simp [Frame.fill,Tree.toList,ahead,behind]
    | right l x h => simp [Frame.fill,Tree.toList,ahead,behind]

theorem spanPerm (fs : List (Frame α)) : (ahead fs ++ behind fs).Perm (span fs) := by
  induction fs with
  | nil => exact .nil
  | cons f fs ih =>
    cases f with
    | left x h r =>
      rw [ahead,behind,span]
      exact List.perm_append_comm_assoc _ _ _ |>.trans ((ih.append_left (x :: r.toList)).trans (.refl _))
    | right l x h =>
      rw [ahead,behind,span,List.append_assoc]
      refine (List.perm_append_comm_assoc _ _ _).trans ((ih.append_left (l.toList ++ [x])).trans ?_)
      rw [List.append_assoc]
      exact List.perm_middle

theorem plugPerm (fs : List (Frame α)) (t : Tree α) : (plug fs t).toList.Perm (t.toList ++ span fs) := by
  rw [plugList]
  exact (List.perm_append_comm_assoc _ _ _).trans ((spanPerm fs).append_left t.toList)

def Frame.Fits (f : Frame α) (n : Nat) : Prop :=
  f.sibling.Balanced ∧ f.height = max n f.sibling.height + 1 ∧ n ≤ f.sibling.height + 1 ∧ f.sibling.height ≤ n + 1

def Fits : List (Frame α) → Nat → Prop
  | [],_ => True
  | f :: fs,n => f.Fits n ∧ Fits fs f.height

section balance
variable {f : Frame α} {fs : List (Frame α)} {t : Tree α} {n : Nat}

@[simp] theorem fillHeight (f : Frame α) (t : Tree α) : (f.fill t).height = f.height := by cases f <;> rfl

theorem fillBalanced : (f.fill t).Balanced ↔ t.Balanced ∧ f.Fits t.height := by
  cases f with
  | left x h r =>
    simp only [Frame.fill,Tree.Balanced,Frame.Fits,Frame.sibling,Frame.height]
  | right l x h =>
    simp only [Frame.fill,Tree.Balanced,Frame.Fits,Frame.sibling,Frame.height,max_comm]
    tauto

theorem plugBalanced : (plug fs t).Balanced ↔ t.Balanced ∧ Fits fs t.height := by
  induction fs generalizing t with
  | nil => simp [plug,Fits]
  | cons f fs ih => rw [plug,ih,fillBalanced,fillHeight,Fits,and_assoc]

theorem plugDeep (fits : Fits fs t.height) : t.height + fs.length ≤ (plug fs t).height := by
  induction fs generalizing t with
  | nil => exact Nat.le_refl _
  | cons f fs ih =>
    obtain ⟨⟨-,height,-,-⟩,above⟩ := fits
    have deep := ih (t := f.fill t) (by rwa [fillHeight])
    rw [fillHeight,height] at deep
    rw [plug,List.length_cons]
    omega

end balance

def Frame.rebuild : Frame α → Tree α → Tree α
  | .left x h r,t => avlRebalance t x h r
  | .right l x h,t => avlRebalance l x h t

def Frame.Steady (f : Frame α) (t : Tree α) : Prop :=
  t.height ≤ f.sibling.height + 1 ∧ f.sibling.height ≤ t.height + 1 ∧ f.height = max t.height f.sibling.height + 1

instance (f : Frame α) (t : Tree α) : Decidable (f.Steady t) := by
  unfold Frame.Steady
  infer_instance

def climb : List (Frame α) → Tree α → Tree α
  | [],t => t
  | f :: fs,t => if f.Steady t then plug fs (f.fill t) else climb fs (f.rebuild t)

def Near (m n : Nat) : Prop := m ≤ n + 1 ∧ n ≤ m + 1

section climbing
variable {l r t : Tree α} {x : α} {f : Frame α} {fs : List (Frame α)} {h n : Nat}

theorem rebalanceSteady (lower : l.height ≤ r.height + 1) (upper : r.height ≤ l.height + 1) :
    avlRebalance l x h r = .node l x (max l.height r.height + 1) r := by
  unfold avlRebalance
  rw [if_neg (by omega),if_neg (by omega)]

theorem rebalanceLeftBalanced (left : l.Balanced) (right : r.Balanced) (high : l.height = r.height + 2) :
    (rebalanceLeft l x h r).Balanced ∧ ((rebalanceLeft l x h r).height = l.height ∨
      (rebalanceLeft l x h r).height = l.height + 1) := by
  cases l with
  | nil => cases high
  | node ll y yh lr =>
    obtain ⟨outer,inner,height,lower,upper⟩ := left
    rw [heightNode] at high
    unfold rebalanceLeft
    dsimp only
    split
    · rename_i single
      simp only [Tree.Balanced,heightNode]
      refine ⟨⟨outer,⟨inner,right,?_,?_,?_⟩,?_,?_,?_⟩,?_⟩ <;> omega
    · rename_i double
      cases lr with
      | nil =>
        rw [heightNil] at height double
        omega
      | node lrl z zh lrr =>
        obtain ⟨first,second,middle,closer,apart⟩ := inner
        simp only [heightNode] at *
        simp only [Tree.Balanced,heightNode]
        refine ⟨⟨⟨outer,first,?_,?_,?_⟩,⟨second,right,?_,?_,?_⟩,?_,?_,?_⟩,?_⟩ <;> omega

theorem rebalanceRightBalanced (left : l.Balanced) (right : r.Balanced) (high : r.height = l.height + 2) :
    (rebalanceRight l x h r).Balanced ∧ ((rebalanceRight l x h r).height = r.height ∨
      (rebalanceRight l x h r).height = r.height + 1) := by
  cases r with
  | nil => cases high
  | node rl y yh rr =>
    obtain ⟨inner,outer,height,lower,upper⟩ := right
    rw [heightNode] at high
    unfold rebalanceRight
    dsimp only
    split
    · rename_i single
      simp only [Tree.Balanced,heightNode]
      refine ⟨⟨⟨left,inner,?_,?_,?_⟩,outer,?_,?_,?_⟩,?_⟩ <;> omega
    · rename_i double
      cases rl with
      | nil =>
        rw [heightNil] at height double
        omega
      | node rll z zh rlr =>
        obtain ⟨first,second,middle,closer,apart⟩ := inner
        simp only [heightNode] at *
        simp only [Tree.Balanced,heightNode]
        refine ⟨⟨⟨left,first,?_,?_,?_⟩,⟨second,outer,?_,?_,?_⟩,?_,?_,?_⟩,?_⟩ <;> omega

theorem rebalanceBalanced (left : l.Balanced) (right : r.Balanced) (lower : l.height ≤ r.height + 2)
    (upper : r.height ≤ l.height + 2) : (avlRebalance l x h r).Balanced ∧
      ((avlRebalance l x h r).height = max l.height r.height + 1 ∨
        (avlRebalance l x h r).height = max l.height r.height ∧ ¬Near l.height r.height) := by
  unfold Near
  unfold avlRebalance
  split
  · obtain ⟨balanced,height⟩ := rebalanceLeftBalanced (x := x) (h := h) left right (by omega)
    refine ⟨balanced,?_⟩
    omega
  · split
    · obtain ⟨balanced,height⟩ := rebalanceRightBalanced (x := x) (h := h) left right (by omega)
      refine ⟨balanced,?_⟩
      omega
    · exact ⟨⟨left,right,rfl,by omega,by omega⟩,.inl rfl⟩

theorem rebuildBalanced (fits : f.Fits n) (balanced : t.Balanced) (near : Near t.height n) :
    (f.rebuild t).Balanced ∧ Near (f.rebuild t).height f.height := by
  obtain ⟨sibling,height,lower,upper⟩ := fits
  obtain ⟨more,less⟩ := near
  cases f with
  | left x h r =>
    simp only [Frame.sibling,Frame.height,Frame.rebuild] at *
    obtain ⟨even,high⟩ := rebalanceBalanced (x := x) (h := h) balanced sibling (by omega) (by omega)
    refine ⟨even,?_⟩
    unfold Near at *
    omega
  | right l x h =>
    simp only [Frame.sibling,Frame.height,Frame.rebuild] at *
    obtain ⟨even,high⟩ := rebalanceBalanced (x := x) (h := h) sibling balanced (by omega) (by omega)
    refine ⟨even,?_⟩
    unfold Near at *
    omega

theorem rebuildSteady (steady : f.Steady t) : f.rebuild t = f.fill t := by
  obtain ⟨lower,upper,height⟩ := steady
  cases f with
  | left x h r =>
    simp only [Frame.sibling,Frame.height,Frame.rebuild,Frame.fill] at *
    rw [rebalanceSteady lower upper,height]
  | right l x h =>
    simp only [Frame.sibling,Frame.height,Frame.rebuild,Frame.fill] at *
    rw [rebalanceSteady upper lower,height,max_comm]

theorem steadyFits (fits : f.Fits n) (steady : f.Steady t) : f.Fits t.height :=
  ⟨fits.1,steady.2.2,steady.1,steady.2.1⟩

theorem climbBalanced (fits : Fits fs n) (balanced : t.Balanced) (near : Near t.height n) : (climb fs t).Balanced := by
  induction fs generalizing t n with
  | nil => exact balanced
  | cons f fs ih =>
    obtain ⟨here,above⟩ := fits
    rw [climb]
    split
    · rename_i steady
      refine plugBalanced.mpr ⟨fillBalanced.mpr ⟨balanced,steadyFits here steady⟩,?_⟩
      rwa [fillHeight]
    · obtain ⟨even,high⟩ := rebuildBalanced here balanced near
      exact ih above even high

theorem rebuildList (f : Frame α) (t : Tree α) : (f.rebuild t).toList = (f.fill t).toList := by
  cases f with
  | left x h r => exact rebalanceList t x h r
  | right l x h => exact rebalanceList l x h t

theorem plugSame {u : Tree α} (fs : List (Frame α)) (same : t.toList = u.toList) :
    (plug fs t).toList = (plug fs u).toList := by
  rw [plugList,plugList,same]

theorem climbList (fs : List (Frame α)) (t : Tree α) : (climb fs t).toList = (plug fs t).toList := by
  induction fs generalizing t with
  | nil => rfl
  | cons f fs ih =>
    rw [climb,plug]
    split
    · rfl
    · rw [ih]
      exact plugSame fs (rebuildList f t)

def rebuildAll : List (Frame α) → Tree α → Tree α
  | [],t => t
  | f :: fs,t => rebuildAll fs (f.rebuild t)

theorem rebuildFits (fits : Fits fs t.height) : rebuildAll fs t = plug fs t := by
  induction fs generalizing t with
  | nil => rfl
  | cons f fs ih =>
    obtain ⟨⟨-,height,lower,upper⟩,above⟩ := fits
    rw [rebuildAll,plug,rebuildSteady ⟨lower,upper,height⟩]
    exact ih (by rwa [fillHeight])

theorem climbAll (fits : Fits fs n) (balanced : t.Balanced) (near : Near t.height n) : climb fs t = rebuildAll fs t := by
  induction fs generalizing t n with
  | nil => rfl
  | cons f fs ih =>
    obtain ⟨here,above⟩ := fits
    rw [climb,rebuildAll]
    split
    · rename_i steady
      rw [rebuildSteady steady]
      exact (rebuildFits (by rwa [fillHeight])).symm
    · obtain ⟨even,high⟩ := rebuildBalanced here balanced near
      exact ih above even high

end climbing

section mapped
variable {α β κ : Type}

def Tree.map (f : α → β) : Tree α → Tree β
  | .nil => .nil
  | .node l x h r => .node (l.map f) (f x) h (r.map f)

@[simp] theorem heightMap (f : α → β) (t : Tree α) : (t.map f).height = t.height := by cases t <;> rfl

theorem rebalanceLeftMap (f : α → β) (l : Tree α) (x : α) (h : Nat) (r : Tree α) :
    (rebalanceLeft l x h r).map f = rebalanceLeft (l.map f) (f x) h (r.map f) := by
  unfold rebalanceLeft
  cases l with
  | nil => rfl
  | node ll y yh lr =>
    simp only [Tree.map,heightMap]
    split
    · rfl
    · cases lr <;> rfl

theorem rebalanceRightMap (f : α → β) (l : Tree α) (x : α) (h : Nat) (r : Tree α) :
    (rebalanceRight l x h r).map f = rebalanceRight (l.map f) (f x) h (r.map f) := by
  unfold rebalanceRight
  cases r with
  | nil => rfl
  | node rl y yh rr =>
    simp only [Tree.map,heightMap]
    split
    · rfl
    · cases rl <;> rfl

theorem rebalanceMap (f : α → β) (l : Tree α) (x : α) (h : Nat) (r : Tree α) :
    (avlRebalance l x h r).map f = avlRebalance (l.map f) (f x) h (r.map f) := by
  unfold avlRebalance
  simp only [heightMap]
  split
  · exact rebalanceLeftMap f l x h r
  · split
    · exact rebalanceRightMap f l x h r
    · rfl

theorem insertMap (f : α → β) (compare : β → κ → Ordering) (new : α) (key : κ) (t : Tree α) :
    (avlInsert (fun x => compare (f x)) new key t).map f = avlInsert compare (f new) key (t.map f) := by
  induction t with
  | nil => rfl
  | node l x h r ihl ihr =>
    rw [avlInsert,Tree.map,avlInsert]
    cases compare (f x) key with
    | eq => rfl
    | lt =>
      dsimp only
      rw [rebalanceMap,ihl]
    | gt =>
      dsimp only
      rw [rebalanceMap,ihr]

theorem searchMap (f : α → β) (compare : β → κ → Ordering) (key : κ) (t : Tree α) :
    avlSearch compare (t.map f) key = (avlSearch (fun x => compare (f x)) t key).map f := by
  induction t with
  | nil => rfl
  | node l x h r ihl ihr =>
    rw [Tree.map,avlSearch,avlSearch]
    cases compare (f x) key with
    | eq => rfl
    | lt => exact ihl
    | gt => exact ihr

end mapped

end MipsElfExec.Avl
