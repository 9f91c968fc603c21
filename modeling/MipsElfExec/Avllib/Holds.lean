import MipsElfExec.Avllib.Node
import MipsElfExec.Lib.Balance
import Mathlib.Data.List.Nodup

/-! What trees the memory holds. The pointers of a node are told by the tree, so that a tree tells the memory
that it takes up; a part of it can be exchanged through the one place that points to it. -/
namespace MipsElfExec.Avllib
open Access Avl

variable {ρ δ : Type}

def ptr : Avl.Tree (Addr × δ) → Option Addr
  | .nil => none
  | .node _ x _ _ => some x.1

@[simp] theorem ptrNil : ptr (.nil : Avl.Tree (Addr × δ)) = none := rfl

@[simp] theorem ptrNode (l : Avl.Tree (Addr × δ)) (x : Addr × δ) (h : Nat) (r : Avl.Tree (Addr × δ)) : ptr (.node l x h r) = some x.1 := rfl

def addrs (xs : List (Addr × δ)) : List Addr := xs.map Prod.fst

def Holds (m : Memory ρ δ) : Avl.Tree (Addr × δ) → Prop
  | .nil => True
  | .node l x h r => m.node x.1 = some ⟨ptr l,ptr r,h,x.2⟩ ∧ Holds m l ∧ Holds m r

def HoldsFrames (m : Memory ρ δ) : List (Frame (Addr × δ)) → Option Addr → Prop
  | [],_ => True
  | .left x h r :: fs,p => m.node x.1 = some ⟨p,ptr r,h,x.2⟩ ∧ Holds m r ∧ HoldsFrames m fs (some x.1)
  | .right l x h :: fs,p => m.node x.1 = some ⟨ptr l,p,h,x.2⟩ ∧ Holds m l ∧ HoldsFrames m fs (some x.1)

structure Rooted (m : Memory ρ δ) (r : ρ) (t : Avl.Tree (Addr × δ)) : Prop where
  root : m.root r = ptr t
  holds : Holds m t
  distinct : (addrs t.toList).Nodup

def hole (r : ρ) : List (Frame (Addr × δ)) → Place ρ
  | [] => .root r
  | .left x _ _ :: _ => .left x.1
  | .right _ x _ :: _ => .right x.1

def places (r : ρ) : List (Frame (Addr × δ)) → List (Place ρ)
  | [] => []
  | _ :: fs => hole r fs :: places r fs

structure Elsewhere (m m' : Memory ρ δ) (r : ρ) (own : List Addr) : Prop where
  root : ∀ s,s ≠ r → m'.root s = m.root s
  node : ∀ a,a ∉ own → m'.node a = m.node a
  allocs : m'.allocs = m.allocs

section frame
variable {m m' m'' : Memory ρ δ} {r : ρ} {t u : Avl.Tree (Addr × δ)} {fs : List (Frame (Addr × δ))} {p q : Option Addr}
  {own more : List Addr}

theorem elsewhereRefl (m : Memory ρ δ) (r : ρ) (own : List Addr) : Elsewhere m m r own :=
  ⟨fun _ _ => rfl,fun _ _ => rfl,rfl⟩

theorem elsewhereTrans (first : Elsewhere m m' r own) (second : Elsewhere m' m'' r own) : Elsewhere m m'' r own :=
  ⟨fun s other => (second.root s other).trans (first.root s other),fun a out => (second.node a out).trans (first.node a out),
    second.allocs.trans first.allocs⟩

theorem elsewhereMono (same : Elsewhere m m' r own) (sub : ∀ a ∈ own,a ∈ more) : Elsewhere m m' r more :=
  ⟨same.root,fun a out => same.node a fun mem => out (sub a mem),same.allocs⟩

@[simp] theorem addrsAppend (xs ys : List (Addr × δ)) : addrs (xs ++ ys) = addrs xs ++ addrs ys := List.map_append

@[simp] theorem addrsNil : addrs ([] : List (Addr × δ)) = [] := rfl

@[simp] theorem addrsCons (x : Addr × δ) (xs : List (Addr × δ)) : addrs (x :: xs) = x.1 :: addrs xs := rfl

theorem holdsCongr (holds : Holds m t) (same : ∀ a ∈ addrs t.toList,m'.node a = m.node a) : Holds m' t := by
  induction t with
  | nil => trivial
  | node l x h r ihl ihr =>
    obtain ⟨here,left,right⟩ := holds
    simp only [Avl.Tree.toList,addrsAppend,addrsCons,List.mem_append,List.mem_cons] at same
    refine ⟨?_,ihl left fun a mem => same a (.inl mem),ihr right fun a mem => same a (.inr (.inr mem))⟩
    rw [same x.1 (.inr (.inl rfl))]
    exact here

theorem holdsFramesCongr (holds : HoldsFrames m fs p) (same : ∀ a ∈ addrs (span fs),m'.node a = m.node a) :
    HoldsFrames m' fs p := by
  induction fs generalizing p with
  | nil => trivial
  | cons f fs ih =>
    simp only [span,addrsAppend,addrsCons,List.mem_append,List.mem_cons,List.cons_append] at same
    have value := same f.value.1 (.inl rfl)
    have sibling (a : Addr) (mem : a ∈ addrs f.sibling.toList) := same a (.inr (.inl mem))
    have above (a : Addr) (mem : a ∈ addrs (span fs)) := same a (.inr (.inr mem))
    cases f with
    | left x h r =>
      obtain ⟨here,right,rest⟩ := holds
      exact ⟨value.trans here,holdsCongr right sibling,ih rest above⟩
    | right l x h =>
      obtain ⟨here,left,rest⟩ := holds
      exact ⟨value.trans here,holdsCongr left sibling,ih rest above⟩

theorem plugHolds : Holds m (plug fs t) ↔ Holds m t ∧ HoldsFrames m fs (ptr t) := by
  induction fs generalizing t with
  | nil => simp [plug,HoldsFrames]
  | cons f fs ih =>
    rw [plug,ih]
    cases f with
    | left x h r =>
      simp only [Frame.fill,Holds,HoldsFrames,ptr]
      tauto
    | right l x h =>
      simp only [Frame.fill,Holds,HoldsFrames,ptr]
      tauto

theorem fillPtr (f : Frame (Addr × δ)) (t : Avl.Tree (Addr × δ)) : ptr (f.fill t) = some f.value.1 := by cases f <;> rfl

theorem plugPtr (same : fs = [] → ptr t = ptr u) : ptr (plug fs t) = ptr (plug fs u) := by
  induction fs generalizing t u with
  | nil => exact same rfl
  | cons f fs ih => exact ih fun _ => by rw [fillPtr,fillPtr]

theorem addrsPerm {xs ys : List (Addr × δ)} (perm : xs.Perm ys) : (addrs xs).Perm (addrs ys) := perm.map _

theorem plugNodup : (addrs (plug fs t).toList).Nodup ↔ (addrs t.toList ++ addrs (span fs)).Nodup := by
  rw [← addrsAppend]
  exact (addrsPerm (plugPerm fs t)).nodup_iff

theorem memNode {l s : Avl.Tree (Addr × δ)} {x : Addr × δ} {h : Nat} {a : Addr} :
    a ∈ addrs (Avl.Tree.node l x h s).toList ↔ a ∈ addrs l.toList ∨ a = x.1 ∨ a ∈ addrs s.toList := by
  simp only [Avl.Tree.toList,addrsAppend,addrsCons,List.mem_append,List.mem_cons]

theorem memPlug {a : Addr} : a ∈ addrs (plug fs t).toList ↔ a ∈ addrs t.toList ∨ a ∈ addrs (span fs) := by
  rw [(addrsPerm (plugPerm fs t)).mem_iff,addrsAppend,List.mem_append]

theorem memSpan {f : Frame (Addr × δ)} {a : Addr} :
    a ∈ addrs (span (f :: fs)) ↔ a = f.value.1 ∨ a ∈ addrs f.sibling.toList ∨ a ∈ addrs (span fs) := by
  simp only [span,List.cons_append,addrsCons,addrsAppend,List.mem_cons,List.mem_append]

theorem nodupNode {l s : Avl.Tree (Addr × δ)} {x : Addr × δ} {h : Nat} (nodup : (addrs (Avl.Tree.node l x h s).toList).Nodup) :
    (addrs l.toList).Nodup ∧ (addrs s.toList).Nodup ∧ x.1 ∉ addrs l.toList ∧ x.1 ∉ addrs s.toList ∧
      ∀ a ∈ addrs l.toList,a ∉ addrs s.toList := by
  simp only [Avl.Tree.toList,addrsAppend,addrsCons] at nodup
  obtain ⟨left,right,apart⟩ := List.nodup_append.mp nodup
  obtain ⟨out,right⟩ := List.nodup_cons.mp right
  exact ⟨left,right,fun mem => apart _ mem _ List.mem_cons_self rfl,out,
    fun a mem other => apart a mem a (List.mem_cons_of_mem _ other) rfl⟩

theorem rootedCongr (rooted : Rooted m r t) (root : m'.root r = m.root r)
    (same : ∀ a ∈ addrs t.toList,m'.node a = m.node a) : Rooted m' r t :=
  ⟨root.trans rooted.root,holdsCongr rooted.holds same,rooted.distinct⟩

theorem rootedInside (rooted : Rooted m r (plug fs t)) (turned : Holds m' u) (same : u.toList = t.toList)
    (top : ptr u = ptr t) (inside : Elsewhere m m' r (addrs t.toList)) (root : m'.root r = m.root r) :
    Rooted m' r (plug fs u) := by
  have distinct := plugNodup.mp rooted.distinct
  obtain ⟨-,-,apart⟩ := List.nodup_append.mp distinct
  obtain ⟨-,above⟩ := plugHolds.mp rooted.holds
  refine ⟨?_,plugHolds.mpr ⟨turned,?_⟩,plugNodup.mpr (by rwa [same])⟩
  · rw [root,rooted.root]
    exact plugPtr fun _ => top.symm
  · rw [top]
    exact holdsFramesCongr above fun a mem => inside.node a fun other => apart a other a mem rfl

theorem getHole (rooted : Rooted m r (plug fs t)) : m.get (hole r fs) = .ok (ptr t) := by
  obtain ⟨-,above⟩ := plugHolds.mp rooted.holds
  cases fs with
  | nil => exact congrArg _ rooted.root
  | cons f fs =>
    cases f with
    | left x h r => simp [hole,Memory.get,Memory.load,above.1,Functor.map,Except.map]
    | right l x h => simp [hole,Memory.get,Memory.load,above.1,Functor.map,Except.map]

end frame

section stores
variable {m : Memory ρ δ} {a b : Addr} {n n' : AvlNode δ}

@[simp] theorem storeRoot : (m.store a n).root = m.root := rfl

@[simp] theorem storeAllocs : (m.store a n).allocs = m.allocs := rfl

theorem storeSame (there : m.node a = some n') : (m.store a n).node a = some n := by simp [Memory.store,there]

theorem storeOther (other : b ≠ a) : (m.store a n).node b = m.node b := by simp [Memory.store,other]

theorem loadOk (there : m.node a = some n) : m.load (some a) = .ok n := by simp [Memory.load,there]

theorem heightOfOk (there : m.node a = some n) : m.heightOf (some a) = .ok n.height := by
  simp [Memory.heightOf,loadOk there,Functor.map,Except.map]

theorem setLeftOk (there : m.node a = some n) (q : Option Addr) :
    m.setLeft (some a) q = .ok (m.store a { n with left := q }) := by simp [Memory.setLeft,Memory.change,there]

theorem setRightOk (there : m.node a = some n) (q : Option Addr) :
    m.setRight (some a) q = .ok (m.store a { n with right := q }) := by simp [Memory.setRight,Memory.change,there]

theorem setHeightOk (there : m.node a = some n) (h : Int) :
    m.setHeight (some a) h = .ok (m.store a { n with height := h }) := by simp [Memory.setHeight,Memory.change,there]

theorem storeNode (b : Addr) : (m.store a n).node b = if b = a then (m.node a).map fun _ => n else m.node b := rfl

@[simp] theorem storeStore : (m.store a n).store a n' = m.store a n' := by
  simp only [Memory.store,Memory.mk.injEq,true_and,and_true]
  funext b
  split
  · rw [if_pos trivial,Option.map_map]
    rfl
  · rfl

theorem holdsStore {t : Avl.Tree (Addr × δ)} (holds : Holds m t) (out : a ∉ addrs t.toList) : Holds (m.store a n) t :=
  holdsCongr holds fun _ mem => storeOther fun same => out (same ▸ mem)

theorem elsewhereStore {r : ρ} {own : List Addr} (mem : a ∈ own) : Elsewhere m (m.store a n) r own :=
  ⟨fun _ _ => rfl,fun _ out => storeOther fun same => out (same ▸ mem),rfl⟩

end stores

section exchange
variable [DecidableEq ρ] {m m' : Memory ρ δ} {r : ρ} {t u : Avl.Tree (Addr × δ)} {fs : List (Frame (Addr × δ))}

theorem putHole (m' : Memory ρ δ) (u : Avl.Tree (Addr × δ)) (rooted : Rooted m r (plug fs t)) (root : m'.root r = m.root r)
    (above : ∀ a ∈ addrs (span fs),m'.node a = m.node a) (holds : Holds m' u)
    (distinct : (addrs u.toList ++ addrs (span fs)).Nodup) :
    ∃ m'',m'.put (hole r fs) (ptr u) = .ok m'' ∧ Rooted m'' r (plug fs u) ∧ Elsewhere m' m'' r (addrs (span fs)) := by
  obtain ⟨-,frames⟩ := plugHolds.mp rooted.holds
  have frames := holdsFramesCongr frames above
  obtain ⟨-,frameNodup,apart⟩ := List.nodup_append.mp distinct
  cases fs with
  | nil =>
    refine ⟨m'.hang r (ptr u),rfl,⟨?_,holdsCongr holds fun _ _ => rfl,plugNodup.mpr distinct⟩,
      ⟨fun s other => ?_,fun _ _ => rfl,rfl⟩⟩
    · simp [Memory.hang,plug]
    · simp [Memory.hang,other]
  | cons f fs =>
    have top : m'.root r = ptr (plug (f :: fs) u) := by
      rw [root,rooted.root]
      exact plugPtr fun none_ => by cases none_
    simp only [span,addrsAppend,addrsCons,List.cons_append] at frameNodup apart
    obtain ⟨out,-⟩ := List.nodup_cons.mp frameNodup
    have outside : ∀ a ∈ addrs u.toList,a ≠ f.value.1 := fun a mem => apart a mem _ List.mem_cons_self
    have further : ∀ a ∈ addrs f.sibling.toList ++ addrs (span fs),a ≠ f.value.1 := fun a mem same => out (same ▸ mem)
    cases f with
    | left x h s =>
      obtain ⟨here,right,rest⟩ := frames
      refine ⟨m'.store x.1 ⟨ptr u,ptr s,h,x.2⟩,setLeftOk here _,⟨top,plugHolds.mpr ⟨?_,storeSame here,?_,?_⟩,
        plugNodup.mpr distinct⟩,⟨fun _ _ => rfl,fun a mem => storeOther fun same => mem (same ▸ List.mem_cons_self),rfl⟩⟩
      · exact holdsCongr holds fun a mem => storeOther (outside a mem)
      · exact holdsCongr right fun a mem => storeOther (further a (List.mem_append_left _ mem))
      · exact holdsFramesCongr rest fun a mem => storeOther (further a (List.mem_append_right _ mem))
    | right l x h =>
      obtain ⟨here,left,rest⟩ := frames
      refine ⟨m'.store x.1 ⟨ptr l,ptr u,h,x.2⟩,setRightOk here _,⟨top,plugHolds.mpr ⟨?_,storeSame here,?_,?_⟩,
        plugNodup.mpr distinct⟩,⟨fun _ _ => rfl,fun a mem => storeOther fun same => mem (same ▸ List.mem_cons_self),rfl⟩⟩
      · exact holdsCongr holds fun a mem => storeOther (outside a mem)
      · exact holdsCongr left fun a mem => storeOther (further a (List.mem_append_left _ mem))
      · exact holdsFramesCongr rest fun a mem => storeOther (further a (List.mem_append_right _ mem))

theorem putTurned (rooted : Rooted m r (plug fs t)) (turned : Holds m' u) (same : u.toList = t.toList)
    (root : m'.root r = m.root r) (inside : Elsewhere m m' r (addrs t.toList)) :
    ∃ m'',m'.put (hole r fs) (ptr u) = .ok m'' ∧ Rooted m'' r (plug fs u) ∧
      Elsewhere m m'' r (addrs (plug fs t).toList) := by
  have distinct := plugNodup.mp rooted.distinct
  obtain ⟨-,-,apart⟩ := List.nodup_append.mp distinct
  obtain ⟨m'',put,fresh,above⟩ := putHole m' u rooted root
    (fun a mem => inside.node a fun other => apart a other a mem rfl) turned (by rwa [same])
  exact ⟨m'',put,fresh,elsewhereTrans (elsewhereMono inside fun _ mem => memPlug.mpr (.inl mem))
    (elsewhereMono above fun _ mem => memPlug.mpr (.inr mem))⟩

end exchange

end MipsElfExec.Avllib
