import MipsElfExec.Lib.Checked

/-! The trees of avlLib, which are threaded through nodes that the callers own. A node keeps no pointer to the one
above it: who changes a tree keeps the places of the pointers that were followed, in an array of a fixed size. -/
namespace MipsElfExec.Avllib
open Access

abbrev Addr := Nat

-- Two pointers and an int; the data of the caller lie behind them.
def nodeSize : Nat := 12

def addressSpace : Nat := 0x100000000

structure AvlNode (δ : Type) where
  left : Option Addr
  right : Option Addr
  height : Int
  data : δ
  deriving DecidableEq, Repr

-- The root pointers that there are, the nodes, and g_memory_alloc_counter.
structure Memory (ρ δ : Type) where
  root : ρ → Option Addr
  node : Addr → Option (AvlNode δ)
  allocs : Int
  below : ∀ a : Nat,(node a).isSome → a + nodeSize ≤ addressSpace
  apart : ∀ a b : Nat,(node a).isSome → (node b).isSome → a < b → a + nodeSize ≤ b

inductive Place (ρ : Type) where
  | root (r : ρ)
  | left (a : Addr)
  | right (a : Addr)
  deriving DecidableEq, Repr

inductive Status where
  | ok | error
  deriving DecidableEq, Repr

def avlMaxHeight : Nat := 42

variable {ρ δ κ : Type}

def Memory.store (m : Memory ρ δ) (a : Addr) (n : AvlNode δ) : Memory ρ δ where
  root := m.root
  node b := if b = a then (m.node a).map fun _ => n else m.node b
  allocs := m.allocs
  below b there := m.below b (by
    by_cases same : b = a
    · subst same
      simpa using there
    · simpa [same] using there)
  apart b c first second less := m.apart b c
    (by
      by_cases same : b = a
      · subst same
        simpa using first
      · simpa [same] using first)
    (by
      by_cases same : c = a
      · subst same
        simpa using second
      · simpa [same] using second) less

def Memory.hang [DecidableEq ρ] (m : Memory ρ δ) (r : ρ) (p : Option Addr) : Memory ρ δ :=
  { m with root := fun s => if s = r then p else m.root s }

section access
variable (m : Memory ρ δ)

def Memory.load : Option Addr → Checked (AvlNode δ)
  | none => .error .null
  | some a => match m.node a with
    | none => .error .read
    | some n => .ok n

def Memory.change (p : Option Addr) (f : AvlNode δ → AvlNode δ) : Checked (Memory ρ δ) := match p with
  | none => .error .null
  | some a => match m.node a with
    | none => .error .write
    | some n => .ok (m.store a (f n))

def Memory.setLeft (p q : Option Addr) : Checked (Memory ρ δ) := m.change p fun n => { n with left := q }

def Memory.setRight (p q : Option Addr) : Checked (Memory ρ δ) := m.change p fun n => { n with right := q }

def Memory.setHeight (p : Option Addr) (h : Int) : Checked (Memory ρ δ) := m.change p fun n => { n with height := h }

def Memory.get : Place ρ → Checked (Option Addr)
  | .root r => .ok (m.root r)
  | .left a => AvlNode.left <$> m.load (some a)
  | .right a => AvlNode.right <$> m.load (some a)

def Memory.put [DecidableEq ρ] (p : Place ρ) (q : Option Addr) : Checked (Memory ρ δ) := match p with
  | .root r => .ok (m.hang r q)
  | .left a => m.setLeft (some a) q
  | .right a => m.setRight (some a) q

def Memory.heightOf : Option Addr → Checked Int
  | none => .ok 0
  | some a => AvlNode.height <$> m.load (some a)

def Memory.reaches (p : Option Addr) (h : Int) : Checked Bool := match p with
  | none => .ok false
  | some a => (fun n => decide (h ≤ n.height)) <$> m.load (some a)

end access

section change
variable [DecidableEq ρ] (m : Memory ρ δ)

-- One turn of the loop of avlRebalance, which is left where it answers true.
def rebalanceNode (nodepp : Place ρ) : Checked (Memory ρ δ × Bool) := do
  let nodep ← m.get nodepp
  let node ← m.load nodep
  let leftp := node.left
  let lefth ← m.heightOf leftp
  let rightp := node.right
  let righth ← m.heightOf rightp
  if righth - lefth < -1 then
    let left ← m.load leftp
    let leftleftp := left.left
    let leftrightp := left.right
    let leftrighth ← m.heightOf leftrightp
    if ← m.reaches leftleftp leftrighth then
      let m ← m.setLeft nodep leftrightp
      let m ← m.setHeight nodep (leftrighth + 1)
      let m ← m.setRight leftp nodep
      let m ← m.setHeight leftp (leftrighth + 2)
      let m ← m.put nodepp leftp
      pure (m,false)
    else
      let leftright ← m.load leftrightp
      let m ← m.setRight leftp leftright.left
      let m ← m.setHeight leftp leftrighth
      let leftright ← m.load leftrightp
      let m ← m.setLeft nodep leftright.right
      let m ← m.setHeight nodep leftrighth
      let m ← m.setLeft leftrightp leftp
      let m ← m.setRight leftrightp nodep
      let m ← m.setHeight leftrightp (leftrighth + 1)
      let m ← m.put nodepp leftrightp
      pure (m,false)
  else if 1 < righth - lefth then
    let right ← m.load rightp
    let rightleftp := right.left
    let rightlefth ← m.heightOf rightleftp
    let rightrightp := right.right
    if ← m.reaches rightrightp rightlefth then
      let m ← m.setRight nodep rightleftp
      let m ← m.setHeight nodep (rightlefth + 1)
      let m ← m.setLeft rightp nodep
      let m ← m.setHeight rightp (rightlefth + 2)
      let m ← m.put nodepp rightp
      pure (m,false)
    else
      let rightleft ← m.load rightleftp
      let m ← m.setRight nodep rightleft.left
      let m ← m.setHeight nodep rightlefth
      let rightleft ← m.load rightleftp
      let m ← m.setLeft rightp rightleft.right
      let m ← m.setHeight rightp rightlefth
      let m ← m.setLeft rightleftp nodep
      let m ← m.setRight rightleftp rightp
      let m ← m.setHeight rightleftp (rightlefth + 1)
      let m ← m.put nodepp rightleftp
      pure (m,false)
  else
    let height := (if lefth < righth then righth else lefth) + 1
    let node ← m.load nodep
    if node.height = height then pure (m,true)
    else
      let m ← m.setHeight nodep height
      pure (m,false)

def avlRebalance (m : Memory ρ δ) (ancestors : List (Place ρ)) : Nat → Checked (Memory ρ δ)
  | 0 => .ok m
  | count + 1 => match ancestors[count]? with
    | none => .error .read
    | some nodepp => do
      let (m,left) ← rebalanceNode m nodepp
      if left then pure m else avlRebalance m ancestors count

end change

inductive Descent (ρ : Type) where
  | vacant (ancestor : List (Place ρ)) (nodepp : Place ρ)
  | found (ancestor : List (Place ρ)) (nodepp : Place ρ) (nodep : Addr)
  deriving DecidableEq, Repr

def descend (compare : δ → κ → Int) (m : Memory ρ δ) (key : κ) :
    Nat → List (Place ρ) → Place ρ → Checked (Descent ρ)
  | 0,ancestor,nodepp => do
    match ← m.get nodepp with
    | none => pure (.vacant ancestor nodepp)
    | some _ => .error .write
  | room + 1,ancestor,nodepp => do
    match ← m.get nodepp with
    | none => pure (.vacant ancestor nodepp)
    | some nodep =>
      let ancestor := ancestor ++ [nodepp]
      let node ← m.load (some nodep)
      let delta := compare node.data key
      if delta = 0 then pure (.found ancestor nodepp nodep)
      else if delta < 0 then descend compare m key room ancestor (.left nodep)
      else descend compare m key room ancestor (.right nodep)

section operations
variable [DecidableEq ρ] (compare : δ → κ → Int) (m : Memory ρ δ)

def hangLeaf (newNode : Option Addr) (nodepp : Place ρ) : Checked (Memory ρ δ) := do
  let m ← m.setLeft newNode none
  let m ← m.setRight newNode none
  let m ← m.setHeight newNode 1
  m.put nodepp newNode

def avlInsert (root : Place ρ) (newNode : Option Addr) (key : κ) : Checked (Memory ρ δ × Status) := do
  match ← descend compare m key avlMaxHeight [] root with
  | .found _ _ _ => pure (m,.error)
  | .vacant ancestor nodepp =>
    let m ← hangLeaf m newNode nodepp
    let m ← avlRebalance m ancestor ancestor.length
    pure (m,.ok)

def avlInsertInform (pRoot : Place ρ) (pNewNode : Option Addr) (key : κ) (ppKeyHolder : Option (Option Addr)) :
    Checked (Memory ρ δ × Status × Option (Option Addr)) := match ppKeyHolder with
  | none => pure (m,.error,none)
  | some _ => do
    match ← descend compare m key avlMaxHeight [] pRoot with
    | .found _ _ nodep => pure (m,.error,some (some nodep))
    | .vacant ancestor nodepp =>
      let m ← hangLeaf m pNewNode nodepp
      let m ← avlRebalance m ancestor ancestor.length
      pure (m,.ok,some pNewNode)

def avlRemoveInsert (pRoot : Place ρ) (pNewNode : Option Addr) (key : κ) : Checked (Memory ρ δ × Option Addr) := do
  match ← descend compare m key avlMaxHeight [] pRoot with
  | .found _ nodepp nodep =>
    let node ← m.load (some nodep)
    let m ← m.setLeft pNewNode node.left
    let node ← m.load (some nodep)
    let m ← m.setRight pNewNode node.right
    let node ← m.load (some nodep)
    let m ← m.setHeight pNewNode node.height
    let m ← m.put nodepp pNewNode
    let m ← m.setLeft (some nodep) none
    let m ← m.setRight (some nodep) none
    let m ← m.setHeight (some nodep) 1
    pure (m,some nodep)
  | .vacant ancestor nodepp =>
    let m ← hangLeaf m pNewNode nodepp
    let m ← avlRebalance m ancestor ancestor.length
    pure (m,none)

def lastBefore (m : Memory ρ δ) : Nat → List (Place ρ) → Place ρ → Checked (List (Place ρ) × Place ρ × Option Addr)
  | 0,ancestor,nodepp => do
    let nodep ← m.get nodepp
    let node ← m.load nodep
    if node.right = none then pure (ancestor,nodepp,nodep) else .error .write
  | room + 1,ancestor,nodepp => do
    let nodep ← m.get nodepp
    let node ← m.load nodep
    match nodep,node.right with
    | some a,some _ => lastBefore m room (ancestor ++ [nodepp]) (.right a)
    | _,_ => pure (ancestor,nodepp,nodep)

def avlDelete (root : Place ρ) (key : κ) : Checked (Memory ρ δ × Option Addr) := do
  match ← descend compare m key avlMaxHeight [] root with
  | .vacant _ _ => pure (m,none)
  | .found ancestor nodepp deletep =>
    let node ← m.load (some deletep)
    if node.left = none then
      let m ← m.put nodepp node.right
      let m ← avlRebalance m ancestor (ancestor.length - 1)
      pure (m,some deletep)
    else
      let deleteAncestorCount := ancestor.length
      let deletepp := nodepp
      let (ancestor,nodepp,nodep) ← lastBefore m (avlMaxHeight - ancestor.length) ancestor (.left deletep)
      let node ← m.load nodep
      let m ← m.put nodepp node.left
      let delete ← m.load (some deletep)
      let m ← m.setLeft nodep delete.left
      let delete ← m.load (some deletep)
      let m ← m.setRight nodep delete.right
      let delete ← m.load (some deletep)
      let m ← m.setHeight nodep delete.height
      let m ← m.put deletepp nodep
      match nodep with
      | none => .error .null
      | some a =>
        if deleteAncestorCount < avlMaxHeight then
          let m ← avlRebalance m (ancestor.set deleteAncestorCount (.left a)) ancestor.length
          pure (m,some deletep)
        else .error .write

end operations

section search
variable (compare : δ → κ → Int) (m : Memory ρ δ) (key : κ)

def avlSearch : Nat → Option Addr → Checked (Option Addr)
  | 0,_ => .error .endless
  | _ + 1,none => .ok none
  | turns + 1,some nodep => do
    let node ← m.load (some nodep)
    let delta := compare node.data key
    if delta = 0 then pure (some nodep)
    else if delta < 0 then avlSearch turns node.left
    else avlSearch turns node.right

def avlSuccessorGet : Nat → Option Addr → Option Addr → Checked (Option Addr)
  | 0,_,_ => .error .endless
  | _ + 1,superiorp,none => .ok superiorp
  | turns + 1,superiorp,some nodep => do
    let node ← m.load (some nodep)
    if compare node.data key < 0 then avlSuccessorGet turns (some nodep) node.left
    else avlSuccessorGet turns superiorp node.right

def avlPredecessorGet : Nat → Option Addr → Option Addr → Checked (Option Addr)
  | 0,_,_ => .error .endless
  | _ + 1,inferiorp,none => .ok inferiorp
  | turns + 1,inferiorp,some nodep => do
    let node ← m.load (some nodep)
    if 0 < compare node.data key then avlPredecessorGet turns (some nodep) node.right
    else avlPredecessorGet turns inferiorp node.left

def minimumFrom (m : Memory ρ δ) : Nat → Addr → Checked Addr
  | 0,_ => .error .endless
  | turns + 1,root => do
    let node ← m.load (some root)
    match node.left with
    | none => pure root
    | some left => minimumFrom m turns left

def maximumFrom (m : Memory ρ δ) : Nat → Addr → Checked Addr
  | 0,_ => .error .endless
  | turns + 1,root => do
    let node ← m.load (some root)
    match node.right with
    | none => pure root
    | some right => maximumFrom m turns right

def avlMinimumGet (turns : Nat) : Option Addr → Checked (Option Addr)
  | none => .ok none
  | some root => some <$> minimumFrom m turns root

def avlMaximumGet (turns : Nat) : Option Addr → Checked (Option Addr)
  | none => .ok none
  | some root => some <$> maximumFrom m turns root

end search

section unsigned
variable (unsignedKey : δ → UInt32) (m : Memory ρ δ)

def compareUnsigned (data : δ) (key : UInt32) : Int :=
  if key = unsignedKey data then 0 else if key < unsignedKey data then -1 else 1

def avlSearchUnsigned (key : UInt32) (turns : Nat) (root : Option Addr) : Checked (Option Addr) :=
  avlSearch (compareUnsigned unsignedKey) m key turns root

def avlInsertUnsigned [DecidableEq ρ] (root : Place ρ) (newNode : Option Addr) : Checked (Memory ρ δ × Status) := do
  let node ← m.load newNode
  avlInsert (compareUnsigned unsignedKey) m root newNode (unsignedKey node.data)

def avlDeleteUnsigned [DecidableEq ρ] (root : Place ρ) (key : UInt32) : Checked (Memory ρ δ × Option Addr) :=
  avlDelete (compareUnsigned unsignedKey) m root key

end unsigned

section array
variable {base stride : Nat} {xs : List δ}

def Memory.array (ρ : Type) (base stride : Nat) (xs : List δ) (wide : nodeSize ≤ stride)
    (room : base + stride * xs.length ≤ addressSpace) : Memory ρ δ where
  root _ := none
  node a := if base ≤ a ∧ stride ∣ a - base then xs[(a - base) / stride]?.map (⟨none,none,0,·⟩) else none
  allocs := 0
  below a there := by
    split at there
    · rename_i slot
      obtain ⟨above,i,at_⟩ := slot
      have pos : 0 < stride := Nat.lt_of_lt_of_le (by decide) wide
      rw [at_,Nat.mul_div_cancel_left i pos,Option.isSome_map] at there
      have inside : i < xs.length := (List.getElem?_eq_some_iff.mp (Option.eq_some_of_isSome there)).1
      have last : stride * (i + 1) ≤ stride * xs.length := Nat.mul_le_mul_left stride inside
      rw [Nat.mul_add] at last
      omega
    · cases there
  apart a b first second less := by
    split at first
    · rename_i slot
      split at second
      · rename_i slot'
        obtain ⟨above,i,at_⟩ := slot
        obtain ⟨above',j,at'⟩ := slot'
        have before : i < j := Nat.lt_of_mul_lt_mul_left (by omega : stride * i < stride * j)
        have next : stride * (i + 1) ≤ stride * j := Nat.mul_le_mul_left stride before
        rw [Nat.mul_add] at next
        omega
      · cases second
    · cases first

def slots (base stride : Nat) : List δ → List (Addr × δ)
  | [] => []
  | x :: xs => (base,x) :: slots (base + stride) stride xs

theorem slotsAt {a : Nat} {x : δ} (mem : (a,x) ∈ slots base stride xs) : ∃ i,a = base + stride * i ∧ xs[i]? = some x := by
  induction xs generalizing base with
  | nil => cases mem
  | cons y xs ih =>
    rcases List.mem_cons.mp mem with same | mem
    · cases same
      exact ⟨0,rfl,rfl⟩
    · obtain ⟨i,at_,there⟩ := ih mem
      exact ⟨i + 1,by rw [Nat.mul_add]; omega,there⟩

theorem slotsData : (slots base stride xs).map Prod.snd = xs := by
  induction xs generalizing base with
  | nil => rfl
  | cons x xs ih => rw [slots,List.map_cons,ih]

theorem slotsApart (wide : nodeSize ≤ stride) : ((slots base stride xs).map Prod.fst).Nodup := by
  have pos : 0 < stride := Nat.lt_of_lt_of_le (by decide) wide
  induction xs generalizing base with
  | nil => exact .nil
  | cons x xs ih =>
    refine List.nodup_cons.mpr ⟨fun mem => ?_,ih⟩
    obtain ⟨⟨a,y⟩,mem,same⟩ := List.mem_map.mp mem
    obtain ⟨i,at_,-⟩ := slotsAt mem
    rw [show a = base from same] at at_
    omega

theorem arrayNode {wide : nodeSize ≤ stride} {room : base + stride * xs.length ≤ addressSpace} {a : Nat} {x : δ}
    (mem : (a,x) ∈ slots base stride xs) : (Memory.array ρ base stride xs wide room).node a = some ⟨none,none,0,x⟩ := by
  have pos : 0 < stride := Nat.lt_of_lt_of_le (by decide) wide
  obtain ⟨i,at_,there⟩ := slotsAt mem
  have offset : a - base = stride * i := by omega
  unfold Memory.array
  dsimp only
  rw [if_pos ⟨by omega,offset ▸ ⟨i,rfl⟩⟩,offset,Nat.mul_div_cancel_left i pos,there]
  rfl

end array

end MipsElfExec.Avllib
