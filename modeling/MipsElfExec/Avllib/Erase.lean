import MipsElfExec.Avllib.Search

/-! Whole trees of avlLib: they are walked, printed and given back to the allocator node by node. -/
namespace MipsElfExec.Avllib
open Access Avl

variable {ρ δ σ : Type}

def Memory.spend (m : Memory ρ δ) : Memory ρ δ := { m with allocs := m.allocs - 1 }

def Memory.unmap (m : Memory ρ δ) (a : Addr) : Memory ρ δ where
  root := m.root
  node b := if b = a then none else m.node b
  allocs := m.allocs
  below b there := m.below b (by
    by_cases same : b = a
    · simp [same] at there
    · simpa [same] using there)
  apart b c first second less := m.apart b c
    (by
      by_cases same : b = a
      · simp [same] at first
      · simpa [same] using first)
    (by
      by_cases same : c = a
      · simp [same] at second
      · simpa [same] using second) less

-- The counter goes down whatever the pointer is; kfree takes NULL, but a node only once.
def rgosFree (m : Memory ρ δ) : Option Addr → Checked (Memory ρ δ)
  | none => .ok m.spend
  | some a => match m.node a with
    | none => .error .write
    | some _ => .ok (m.spend.unmap a)

def avlTreeWalk (walkExec : σ → Memory ρ δ → Place ρ → Checked (σ × Memory ρ δ)) :
    Nat → σ → Memory ρ δ → Option (Place ρ) → Checked (σ × Memory ρ δ)
  | 0,_,_,_ => .error .endless
  | _ + 1,out,m,none => .ok (out,m)
  | turns + 1,out,m,some pRoot => do
    match ← m.get pRoot with
    | none => pure (out,m)
    | some root =>
      let node ← m.load (some root)
      let (out,m) ← (if node.left = none then pure (out,m) else avlTreeWalk walkExec turns out m (some (.left root)))
      match ← m.get pRoot with
      | none => .error .null
      | some root =>
        let node ← m.load (some root)
        let (out,m) ← (if node.right = none then pure (out,m) else avlTreeWalk walkExec turns out m (some (.right root)))
        walkExec out m pRoot

def avlTreePrint (printNode : σ → Addr → σ) (m : Memory ρ δ) : Nat → σ → Option (Place ρ) → Checked σ
  | 0,_,_ => .error .endless
  | _ + 1,out,none => .ok out
  | turns + 1,out,some pRoot => do
    match ← m.get pRoot with
    | none => pure out
    | some root =>
      let out := printNode out root
      let node ← m.load (some root)
      let out ← (if node.left = none then pure out else avlTreePrint printNode m turns out (some (.left root)))
      if node.right = none then pure out else avlTreePrint printNode m turns out (some (.right root))

section erase
variable [DecidableEq ρ]

def avlTreePrintErase (printNode : σ → Addr → σ) : Nat → σ → Memory ρ δ → Option (Place ρ) → Checked (σ × Memory ρ δ)
  | 0,_,_,_ => .error .endless
  | _ + 1,out,m,none => .ok (out,m)
  | turns + 1,out,m,some pRoot => do
    match ← m.get pRoot with
    | none => pure (out,m)
    | some root =>
      let out := printNode out root
      let node ← m.load (some root)
      let (out,m) ← (if node.left = none then pure (out,m) else do
        let (out,m) ← avlTreePrintErase printNode turns out m (some (.left root))
        let root ← m.get pRoot
        let node ← m.load root
        let m ← rgosFree m node.left
        let root ← m.get pRoot
        let m ← m.setLeft root none
        pure (out,m))
      match ← m.get pRoot with
      | none => .error .null
      | some root =>
        let node ← m.load (some root)
        let (out,m) ← (if node.right = none then pure (out,m) else do
          let (out,m) ← avlTreePrintErase printNode turns out m (some (.right root))
          let root ← m.get pRoot
          let node ← m.load root
          let m ← rgosFree m node.right
          let root ← m.get pRoot
          let m ← m.setRight root none
          pure (out,m))
        let root ← m.get pRoot
        let m ← rgosFree m root
        let m ← m.put pRoot none
        pure (out,m)

def avlTreeErase (turns : Nat) (m : Memory ρ δ) (pRoot : Option (Place ρ)) : Checked (Memory ρ δ) :=
  Prod.snd <$> avlTreePrintErase (fun out _ => out) turns () m pRoot

end erase

def preorder : Avl.Tree (Addr × δ) → List Addr
  | .nil => []
  | .node l x _ s => x.1 :: (preorder l ++ preorder s)

def postorder : Avl.Tree (Addr × δ) → List Addr
  | .nil => []
  | .node l x _ s => postorder l ++ (postorder s ++ [x.1])

section walks
variable {m : Memory ρ δ} {r : ρ} {fs : List (Frame (Addr × δ))} {t : Avl.Tree (Addr × δ)} {turns : Nat}

theorem threeWide : nodeSize ≤ 12 := by decide

theorem leaningRoom : 0 + 12 * ([5,3,1] : List Nat).length ≤ addressSpace := by decide

def leaning : Memory Unit Nat := (((Memory.array Unit 0 12 [5,3,1] threeWide leaningRoom).store 0 ⟨some 12,none,1,5⟩).store 12
  ⟨some 24,none,1,3⟩).store 24 ⟨none,none,1,1⟩ |>.hang () (some 0)

theorem leaningRooted : Rooted leaning () (.node (.node (.node .nil (24,1) 1 .nil) (12,3) 1 .nil) (0,5) 1 .nil) :=
  ⟨rfl,⟨rfl,⟨rfl,⟨rfl,trivial,trivial⟩,trivial⟩,trivial⟩,by decide⟩

theorem preorderPerm (t : Avl.Tree (Addr × δ)) : (preorder t).Perm (addrs t.toList) := by
  induction t with
  | nil => exact .nil
  | node l x h s ihl ihr =>
    rw [preorder,Avl.Tree.toList,addrsAppend,addrsCons]
    exact ((ihl.append ihr).cons x.1).trans List.perm_middle.symm

theorem postorderPerm (t : Avl.Tree (Addr × δ)) : (postorder t).Perm (addrs t.toList) := by
  induction t with
  | nil => exact .nil
  | node l x h s ihl ihr =>
    rw [postorder,Avl.Tree.toList,addrsAppend,addrsCons]
    exact ihl.append ((List.perm_append_singleton x.1 _).trans (ihr.cons x.1))

theorem ptrNone : ptr t = none ↔ t = .nil := by cases t <;> simp

theorem printTree (printNode : σ → Addr → σ) (rooted : Rooted m r (plug fs t)) (enough : t.depth < turns)
    (out : σ) :
    avlTreePrint printNode m turns out (some (hole r fs)) = .ok ((preorder t).foldl printNode out) := by
  induction t generalizing fs turns out with
  | nil =>
    cases turns with
    | zero => cases enough
    | succ turns =>
      rw [avlTreePrint,getHole rooted]
      rfl
  | node l x h s ihl ihr =>
    cases turns with
    | zero => cases enough
    | succ turns =>
      rw [Avl.Tree.depth] at enough
      obtain ⟨⟨here,-,-⟩,-⟩ := plugHolds.mp rooted.holds
      have first (out : σ) : (if ptr l = none then pure out else avlTreePrint printNode m turns out (some (.left x.1))) =
          .ok ((preorder l).foldl printNode out) := by
        split
        · rename_i none_
          rw [ptrNone.mp none_]
          rfl
        · exact ihl (show Rooted m r (plug (.left x h s :: fs) l) from rooted) (by omega) out
      have second (out : σ) : (if ptr s = none then pure out else avlTreePrint printNode m turns out (some (.right x.1))) =
          .ok ((preorder s).foldl printNode out) := by
        split
        · rename_i none_
          rw [ptrNone.mp none_]
          rfl
        · exact ihr (show Rooted m r (plug (.right l x h :: fs) s) from rooted) (by omega) out
      rw [avlTreePrint,getHole rooted,ptrNode]
      simp only [okBind,loadOk here,first,second,preorder,List.foldl_cons,List.foldl_append]

theorem walkTree {walkExec : σ → Memory ρ δ → Place ρ → Checked (σ × Memory ρ δ)} {see : σ → Addr → σ}
    (looks : ∀ out p a,m.get p = .ok (some a) → walkExec out m p = .ok (see out a,m)) (rooted : Rooted m r (plug fs t))
    (enough : t.depth < turns) (out : σ) :
    avlTreeWalk walkExec turns out m (some (hole r fs)) = .ok ((postorder t).foldl see out,m) := by
  induction t generalizing fs turns out with
  | nil =>
    cases turns with
    | zero => cases enough
    | succ turns =>
      rw [avlTreeWalk,getHole rooted]
      rfl
  | node l x h s ihl ihr =>
    cases turns with
    | zero => cases enough
    | succ turns =>
      rw [Avl.Tree.depth] at enough
      obtain ⟨⟨here,-,-⟩,-⟩ := plugHolds.mp rooted.holds
      have place := getHole rooted
      rw [ptrNode] at place
      have first (out : σ) : (if ptr l = none then pure (out,m) else avlTreeWalk walkExec turns out m (some (.left x.1))) =
          .ok ((postorder l).foldl see out,m) := by
        split
        · rename_i none_
          rw [ptrNone.mp none_]
          rfl
        · exact ihl (show Rooted m r (plug (.left x h s :: fs) l) from rooted) (by omega) out
      have second (out : σ) : (if ptr s = none then pure (out,m) else avlTreeWalk walkExec turns out m (some (.right x.1))) =
          .ok ((postorder s).foldl see out,m) := by
        split
        · rename_i none_
          rw [ptrNone.mp none_]
          rfl
        · exact ihr (show Rooted m r (plug (.right l x h :: fs) s) from rooted) (by omega) out
      rw [avlTreeWalk,place]
      simp only [okBind,loadOk here,first,place,second,looks _ _ _ place,postorder,List.foldl_append,List.foldl_cons,List.foldl_nil]

theorem preorderPlug (fs : List (Frame (Addr × δ))) (t : Avl.Tree (Addr × δ)) : (preorder t).Sublist (preorder (plug fs t)) := by
  induction fs generalizing t with
  | nil => exact List.Sublist.refl _
  | cons f fs ih =>
    refine List.Sublist.trans ?_ (ih (f.fill t))
    cases f with
    | left x h s => exact (List.sublist_append_left (preorder t) (preorder s)).cons x.1
    | right l x h => exact (List.sublist_append_right (preorder l) (preorder t)).cons x.1

theorem postorderPlug (fs : List (Frame (Addr × δ))) (t : Avl.Tree (Addr × δ)) : (postorder t).Sublist (postorder (plug fs t)) := by
  induction fs generalizing t with
  | nil => exact List.Sublist.refl _
  | cons f fs ih =>
    refine List.Sublist.trans ?_ (ih (f.fill t))
    cases f with
    | left x h s => exact List.sublist_append_left (postorder t) _
    | right l x h =>
      exact (List.sublist_append_left (postorder t) [x.1]).trans (List.sublist_append_right (postorder l) _)

theorem preorderBelow {l s : Avl.Tree (Addr × δ)} {x : Addr × δ} {h : Nat} {a : Addr}
    (below : a ∈ addrs l.toList ∨ a ∈ addrs s.toList) : [x.1,a].Sublist (preorder (plug fs (.node l x h s))) := by
  refine List.Sublist.trans ?_ (preorderPlug fs (.node l x h s))
  refine List.Sublist.cons_cons x.1 (List.singleton_sublist.mpr (List.mem_append.mpr ?_))
  exact below.imp (preorderPerm l).mem_iff.mpr (preorderPerm s).mem_iff.mpr

theorem postorderBelow {l s : Avl.Tree (Addr × δ)} {x : Addr × δ} {h : Nat} {a : Addr}
    (below : a ∈ addrs l.toList ∨ a ∈ addrs s.toList) : [a,x.1].Sublist (postorder (plug fs (.node l x h s))) := by
  refine List.Sublist.trans ?_ (postorderPlug fs (.node l x h s))
  rw [postorder,← List.append_assoc]
  refine List.Sublist.append (List.singleton_sublist.mpr (List.mem_append.mpr ?_)) (List.Sublist.refl [x.1])
  exact below.imp (postorderPerm l).mem_iff.mpr (postorderPerm s).mem_iff.mpr

/-- Printing and walking see every node of a tree of any shape once: before all that hang below it the one, after
them the other. -/
theorem seesWhole (walkExec : σ → Memory ρ δ → Place ρ → Checked (σ × Memory ρ δ)) (see printNode : σ → Addr → σ)
    (looks : ∀ out p a,m.get p = .ok (some a) → walkExec out m p = .ok (see out a,m)) (rooted : Rooted m r t)
    (enough : t.depth < turns) (out : σ) : ∃ down up : List Addr,down.Perm (addrs t.toList) ∧ up.Perm (addrs t.toList) ∧
      avlTreePrint printNode m turns out (some (.root r)) = .ok (down.foldl printNode out) ∧
      avlTreeWalk walkExec turns out m (some (.root r)) = .ok (up.foldl see out,m) ∧
      ∀ fs l x h s,t = plug fs (.node l x h s) → ∀ a,a ∈ addrs l.toList ∨ a ∈ addrs s.toList →
        [x.1,a].Sublist down ∧ [a,x.1].Sublist up := by
  have rooted : Rooted m r (plug [] t) := rooted
  refine ⟨preorder t,postorder t,preorderPerm t,postorderPerm t,printTree printNode rooted enough out,
    walkTree looks rooted enough out,fun fs l x h s same a below => ?_⟩
  subst same
  exact ⟨preorderBelow below,postorderBelow below⟩

theorem seesWhole_leaning : ∃ down up : List Addr,down.Perm [24,12,0] ∧ up.Perm [24,12,0] ∧
    avlTreePrint (fun out a => out ++ [a]) leaning 4 [] (some (.root ())) = .ok (down.foldl (fun out a => out ++ [a]) []) ∧
    avlTreeWalk (fun out m p => do let q ← m.get p; pure (out ++ q.toList,m)) 4 [] leaning (some (.root ())) =
      .ok (up.foldl (fun out a => out ++ [a]) [],leaning) ∧ [12,24].Sublist down ∧ [24,12].Sublist up := by
  obtain ⟨down,up,first,second,prints,walks,below⟩ := seesWhole (fun out m p => do let q ← m.get p; pure (out ++ q.toList,m))
    (fun out a => out ++ [a]) (fun out a => out ++ [a])
    (fun out p a there => by rw [there]; rfl) leaningRooted (show _ < 4 by decide) []
  exact ⟨down,up,first,second,prints,walks,below [.left (0,5) 1 .nil] _ _ _ _ rfl 24 (.inl List.mem_cons_self)⟩

end walks

structure Wiped (m m' : Memory ρ δ) (r : ρ) (fs : List (Frame (Addr × δ))) (t : Avl.Tree (Addr × δ)) (cost : Nat) : Prop where
  stands : Rooted m' r (plug fs .nil)
  gone : ∀ a ∈ addrs t.toList,m'.node a = none
  root : ∀ s,s ≠ r → m'.root s = m.root s
  node : ∀ a,a ∉ addrs t.toList → a ∉ addrs (span fs) → m'.node a = m.node a
  allocs : m'.allocs = m.allocs - cost

section wiping
variable {m m' m'' : Memory ρ δ} {r : ρ} {fs : List (Frame (Addr × δ))} {l s t : Avl.Tree (Addr × δ)} {x : Addr × δ} {h c c' : Nat}
  {turns : Nat}

theorem wipedNil (rooted : Rooted m r (plug fs .nil)) : Wiped m m r fs .nil 0 :=
  ⟨rooted,fun _ mem => (by cases mem),fun _ _ => rfl,fun _ _ _ => rfl,by simp⟩

theorem wipedSpend (wiped : Wiped m m' r fs t c) : Wiped m m'.spend r fs t (c + 1) where
  stands := rootedCongr wiped.stands rfl fun _ _ => rfl
  gone := wiped.gone
  root := wiped.root
  node := wiped.node
  allocs := by
    have cost := wiped.allocs
    unfold Memory.spend
    dsimp only
    omega

theorem storeId {a : Addr} {n : AvlNode δ} (there : m.node a = some n) : m.store a n = m := by
  unfold Memory.store
  congr
  funext b
  split
  · rename_i same
    rw [same,there]
    rfl
  · rfl

theorem unlink (stands : Rooted m r (plug fs t)) (top : ptr t = some x.1) {n : AvlNode δ} (here : m.node x.1 = some n) :
    m.get (hole r fs) = .ok (some x.1) ∧ m.spend.get (hole r fs) = .ok (some x.1) ∧ rgosFree m none = .ok m.spend ∧
      (n.left = none → m.spend.setLeft (some x.1) none = .ok m.spend) ∧
      (n.right = none → m.spend.setRight (some x.1) none = .ok m.spend) := by
  have spent : Rooted m.spend r (plug fs t) := rootedCongr stands rfl fun _ _ => rfl
  have hereAfter : m.spend.node x.1 = some n := here
  refine ⟨top ▸ getHole stands,top ▸ getHole spent,rfl,fun none_ => ?_,fun none_ => ?_⟩
  · rw [setLeftOk hereAfter,storeId]
    rw [hereAfter,← none_]
  · rw [setRightOk hereAfter,storeId]
    rw [hereAfter,← none_]

variable [DecidableEq ρ]

theorem freeTop (rooted : Rooted m r (plug fs (.node .nil x h .nil))) : ∃ m' m'',rgosFree m (some x.1) = .ok m' ∧
    m'.put (hole r fs) none = .ok m'' ∧ Wiped m m'' r fs (.node .nil x h .nil) 1 := by
  obtain ⟨⟨here,-,-⟩,-⟩ := plugHolds.mp rooted.holds
  have distinct := plugNodup.mp rooted.distinct
  obtain ⟨out,frames⟩ := List.nodup_cons.mp (show (x.1 :: addrs (span fs)).Nodup from distinct)
  have unmapped (a : Addr) (other : a ≠ x.1) : (m.spend.unmap x.1).node a = m.node a := if_neg other
  obtain ⟨m'',put,stands,same⟩ := putHole (m.spend.unmap x.1) .nil rooted rfl
    (fun a mem => unmapped a fun equal => out (equal ▸ mem)) trivial frames
  refine ⟨_,m'',by simp [rgosFree,here],put,stands,fun a mem => ?_,same.root,fun a other apart => ?_,same.allocs⟩
  · rw [List.mem_singleton.mp (show a ∈ [x.1] from mem),same.node x.1 out]
    exact if_pos rfl
  · rw [same.node a apart]
    exact unmapped a fun equal => other (equal ▸ List.mem_cons_self)

theorem wipedNode (distinct : (addrs (plug fs (.node l x h s)).toList).Nodup) (first : Wiped m m' r (.left x h s :: fs) l c)
    (second : Wiped m' m'' r (.right .nil x h :: fs) s c') : ∃ m₁ m₂,rgosFree m'' (some x.1) = .ok m₁ ∧
      m₁.put (hole r fs) none = .ok m₂ ∧ Wiped m m₂ r fs (.node l x h s) (c + c' + 1) := by
  obtain ⟨node,-,apart⟩ := List.nodup_append.mp (plugNodup.mp distinct)
  obtain ⟨-,-,xLeft,xRight,across⟩ := nodupNode node
  obtain ⟨m₁,m₂,free,put,top⟩ := freeTop (h := h) second.stands
  have frames (a : Addr) (mem : a ∈ addrs (Avl.Tree.node l x h s).toList) : a ∉ addrs (span fs) := fun other => apart a mem a other rfl
  have listed (a : Addr) : a ∈ addrs (Avl.Tree.node .nil x h .nil).toList ↔ a = x.1 := List.mem_singleton
  refine ⟨m₁,m₂,free,put,top.stands,fun a mem => ?_,fun q other => ?_,fun a other outside => ?_,?_⟩
  · have outside := frames a mem
    rcases memNode.mp mem with mem | rfl | mem
    · have other : a ≠ x.1 := fun equal => xLeft (equal ▸ mem)
      rw [top.node a (fun mem => other ((listed a).mp mem)) outside,second.node a (across a mem) fun mem => ?_,first.gone a mem]
      rcases memSpan.mp mem with mem | mem | mem
      · exact other mem
      · cases mem
      · exact outside mem
    · exact top.gone x.1 ((listed x.1).mpr rfl)
    · have other : a ≠ x.1 := fun equal => xRight (equal ▸ mem)
      rw [top.node a (fun mem => other ((listed a).mp mem)) outside,second.gone a mem]
  · rw [top.root q other,second.root q other,first.root q other]
  · rw [memNode,not_or,not_or] at other
    rw [top.node a (fun mem => other.2.1 ((listed a).mp mem)) outside,second.node a other.2.2 fun mem => ?_,
      first.node a other.1 fun mem => ?_]
    · rcases memSpan.mp mem with mem | mem | mem
      · exact other.2.1 mem
      · exact other.2.2 mem
      · exact outside mem
    · rcases memSpan.mp mem with mem | mem | mem
      · exact other.2.1 mem
      · cases mem
      · exact outside mem
  · have one := first.allocs
    have two := second.allocs
    have three := top.allocs
    push_cast
    omega

theorem eraseTree (printNode : σ → Addr → σ) (rooted : Rooted m r (plug fs t)) (enough : t.depth < turns)
    (out : σ) :
    ∃ m',avlTreePrintErase printNode turns out m (some (hole r fs)) = .ok ((preorder t).foldl printNode out,m') ∧
      Wiped m m' r fs t (2 * t.toList.length - 1) := by
  induction t generalizing fs turns out m with
  | nil =>
    cases turns with
    | zero => cases enough
    | succ turns =>
      refine ⟨m,?_,wipedNil rooted⟩
      rw [avlTreePrintErase,getHole rooted]
      rfl
  | node l x h s ihl ihr =>
    cases turns with
    | zero => cases enough
    | succ turns =>
      rw [Avl.Tree.depth] at enough
      obtain ⟨⟨here,-,-⟩,-⟩ := plugHolds.mp rooted.holds
      have place := getHole rooted
      rw [ptrNode] at place
      obtain ⟨m₁,first,wiped⟩ : ∃ m₁,(if ptr l = none then pure (printNode out x.1,m) else do
          let (out,m) ← avlTreePrintErase printNode turns (printNode out x.1) m (some (.left x.1))
          let root ← m.get (hole r fs)
          let node ← m.load root
          let m ← rgosFree m node.left
          let root ← m.get (hole r fs)
          let m ← m.setLeft root none
          pure (out,m)) = .ok ((preorder l).foldl printNode (printNode out x.1),m₁) ∧
          Wiped m m₁ r (.left x h s :: fs) l (2 * l.toList.length) := by
        split
        · rename_i none_
          rw [ptrNone.mp none_] at rooted ⊢
          exact ⟨m,rfl,wipedNil rooted⟩
        · rename_i some_
          obtain ⟨m₀,run,wiped⟩ := ihl (show Rooted m r (plug (.left x h s :: fs) l) from rooted) (show l.depth < turns by omega) (printNode out x.1)
          have run : avlTreePrintErase printNode turns (printNode out x.1) m (some (.left x.1)) = _ := run
          have stands : Rooted m₀ r (plug fs (.node .nil x h s)) := wiped.stands
          obtain ⟨⟨top,-,-⟩,-⟩ := plugHolds.mp stands.holds
          obtain ⟨get,getAgain,free,set,-⟩ := unlink stands rfl top
          have spent := wipedSpend wiped
          refine ⟨m₀.spend,?_,?_⟩
          · rw [ptrNil] at top
            simp only [run,okBind,get,loadOk top,free,getAgain,set rfl]
            rfl
          · have some_ : l.toList ≠ [] := by
              cases l with
              | nil => exact absurd rfl some_
              | node ll y yh lr => exact nodeList ll y yh lr
            have long := List.length_pos_of_ne_nil some_
            rwa [show 2 * l.toList.length - 1 + 1 = 2 * l.toList.length from by omega] at spent
      have stands : Rooted m₁ r (plug fs (.node .nil x h s)) := wiped.stands
      obtain ⟨⟨top,-,-⟩,-⟩ := plugHolds.mp stands.holds
      have placeAfter := getHole stands
      rw [ptrNode] at placeAfter
      obtain ⟨m₂,second,wipedRight⟩ : ∃ m₂,(if ptr s = none then pure ((preorder l).foldl printNode (printNode out x.1),m₁) else do
          let (out,m) ← avlTreePrintErase printNode turns ((preorder l).foldl printNode (printNode out x.1)) m₁ (some (.right x.1))
          let root ← m.get (hole r fs)
          let node ← m.load root
          let m ← rgosFree m node.right
          let root ← m.get (hole r fs)
          let m ← m.setRight root none
          pure (out,m)) = .ok ((preorder s).foldl printNode ((preorder l).foldl printNode (printNode out x.1)),m₂) ∧
          Wiped m₁ m₂ r (.right .nil x h :: fs) s (2 * s.toList.length) := by
        split
        · rename_i none_
          rw [ptrNone.mp none_] at stands ⊢
          exact ⟨m₁,rfl,wipedNil stands⟩
        · rename_i some_
          obtain ⟨m₀,run,wiped⟩ := ihr (show Rooted m₁ r (plug (.right .nil x h :: fs) s) from stands) (show s.depth < turns by omega)
            ((preorder l).foldl printNode (printNode out x.1))
          have run : avlTreePrintErase printNode turns _ m₁ (some (.right x.1)) = _ := run
          have stands : Rooted m₀ r (plug fs (.node .nil x h .nil)) := wiped.stands
          obtain ⟨⟨top,-,-⟩,-⟩ := plugHolds.mp stands.holds
          obtain ⟨get,getAgain,free,-,set⟩ := unlink stands rfl top
          have spent := wipedSpend wiped
          refine ⟨m₀.spend,?_,?_⟩
          · rw [ptrNil] at top
            simp only [run,okBind,get,loadOk top,free,getAgain,set rfl]
            rfl
          · have some_ : s.toList ≠ [] := by
              cases s with
              | nil => exact absurd rfl some_
              | node rl y yh rr => exact nodeList rl y yh rr
            have long := List.length_pos_of_ne_nil some_
            rwa [show 2 * s.toList.length - 1 + 1 = 2 * s.toList.length from by omega] at spent
      obtain ⟨m₃,m₄,free,put,whole⟩ := wipedNode rooted.distinct wiped wipedRight
      have last : Rooted m₂ r (plug fs (.node .nil x h .nil)) := wipedRight.stands
      have placeLast := getHole last
      rw [ptrNode] at placeLast
      refine ⟨m₄,?_,?_⟩
      · rw [avlTreePrintErase,place]
        simp only [okBind,loadOk here,first,placeAfter,loadOk top,second,placeLast,free,put,preorder,List.foldl_cons,
          List.foldl_append]
        rfl
      · have count : 2 * (Avl.Tree.node l x h s).toList.length - 1 = 2 * l.toList.length + 2 * s.toList.length + 1 := by
          rw [Avl.Tree.toList,List.length_append,List.length_cons]
          omega
        rwa [count]

def freeNode (out : Unit) (m : Memory ρ δ) (ppNode : Place ρ) : Checked (Unit × Memory ρ δ) := do
  let root ← m.get ppNode
  let m ← rgosFree m root
  let m ← m.put ppNode none
  pure (out,m)

theorem walkFrees (rooted : Rooted m r (plug fs t)) (enough : t.depth < turns) :
    ∃ m',avlTreeWalk freeNode turns () m (some (hole r fs)) = .ok ((),m') ∧ Wiped m m' r fs t t.toList.length := by
  induction t generalizing fs turns m with
  | nil =>
    cases turns with
    | zero => cases enough
    | succ turns =>
      refine ⟨m,?_,wipedNil rooted⟩
      rw [avlTreeWalk,getHole rooted]
      rfl
  | node l x h s ihl ihr =>
    cases turns with
    | zero => cases enough
    | succ turns =>
      rw [Avl.Tree.depth] at enough
      obtain ⟨⟨here,-,-⟩,-⟩ := plugHolds.mp rooted.holds
      have place := getHole rooted
      rw [ptrNode] at place
      obtain ⟨m₁,first,wiped⟩ : ∃ m₁,(if ptr l = none then pure ((),m) else avlTreeWalk freeNode turns () m (some (.left x.1))) =
          .ok ((),m₁) ∧ Wiped m m₁ r (.left x h s :: fs) l l.toList.length := by
        split
        · rename_i none_
          rw [ptrNone.mp none_] at rooted ⊢
          exact ⟨m,rfl,wipedNil rooted⟩
        · exact ihl (show Rooted m r (plug (.left x h s :: fs) l) from rooted) (by omega)
      have stands : Rooted m₁ r (plug fs (.node .nil x h s)) := wiped.stands
      obtain ⟨⟨top,-,-⟩,-⟩ := plugHolds.mp stands.holds
      have placeAfter := getHole stands
      rw [ptrNode] at placeAfter
      obtain ⟨m₂,second,wipedRight⟩ : ∃ m₂,(if ptr s = none then pure ((),m₁) else avlTreeWalk freeNode turns () m₁ (some (.right x.1))) =
          .ok ((),m₂) ∧ Wiped m₁ m₂ r (.right .nil x h :: fs) s s.toList.length := by
        split
        · rename_i none_
          rw [ptrNone.mp none_] at stands ⊢
          exact ⟨m₁,rfl,wipedNil stands⟩
        · exact ihr (show Rooted m₁ r (plug (.right .nil x h :: fs) s) from stands) (by omega)
      obtain ⟨m₃,m₄,free,put,whole⟩ := wipedNode rooted.distinct wiped wipedRight
      have last : Rooted m₂ r (plug fs (.node .nil x h .nil)) := wipedRight.stands
      have placeLast := getHole last
      rw [ptrNode] at placeLast
      refine ⟨m₄,?_,?_⟩
      · rw [avlTreeWalk,place]
        simp only [okBind,loadOk here,first,placeAfter,loadOk top,second,freeNode,placeLast,free,put]
        rfl
      · rwa [Avl.Tree.toList,List.length_append,List.length_cons,← Nat.add_assoc]

/-- The two ways to give a whole tree back leave the same: no node of it, no way to it, every other node and root as it
was. They differ in the counter of the allocator, which avlTreeErase lowers twice for every node but the top. -/
theorem erasesWhole (printNode : σ → Addr → σ) (rooted : Rooted m r t) (enough : t.depth < turns) (out : σ) :
    ∃ m₁ m₂,avlTreePrintErase printNode turns out m (some (.root r)) = .ok ((preorder t).foldl printNode out,m₁) ∧
      avlTreeWalk freeNode turns () m (some (.root r)) = .ok ((),m₂) ∧
      (∀ q,m₁.root q = (if q = r then none else m.root q) ∧ m₂.root q = if q = r then none else m.root q) ∧
      (∀ a,m₁.node a = (if a ∈ addrs t.toList then none else m.node a) ∧ m₂.node a = if a ∈ addrs t.toList then none else m.node a) ∧
      m₁.allocs = m.allocs - (2 * t.toList.length - 1 : Nat) ∧ m₂.allocs = m.allocs - t.toList.length := by
  have rooted : Rooted m r (plug [] t) := rooted
  obtain ⟨m₁,erases,first⟩ := eraseTree printNode rooted enough out
  obtain ⟨m₂,walks,second⟩ := walkFrees rooted enough
  have roots {m' : Memory ρ δ} {cost : Nat} (wiped : Wiped m m' r [] t cost) (q : ρ) :
      m'.root q = if q = r then none else m.root q := by
    split
    · rename_i same
      rw [same]
      exact wiped.stands.root
    · rename_i other
      exact wiped.root q other
  have nodes {m' : Memory ρ δ} {cost : Nat} (wiped : Wiped m m' r [] t cost) (a : Addr) :
      m'.node a = if a ∈ addrs t.toList then none else m.node a := by
    split
    · rename_i mem
      exact wiped.gone a mem
    · rename_i out
      exact wiped.node a out fun mem => by cases mem
  exact ⟨m₁,m₂,erases,walks,fun q => ⟨roots first q,roots second q⟩,fun a => ⟨nodes first a,nodes second a⟩,first.allocs,second.allocs⟩

theorem erasesWhole_leaning : ∃ m₁ m₂,
    avlTreePrintErase (fun out a => out ++ [a]) 4 [] leaning (some (.root ())) = .ok ([0,12,24],m₁) ∧
    avlTreeWalk freeNode 4 () leaning (some (.root ())) = .ok ((),m₂) ∧ m₁.root () = none ∧ m₂.root () = none ∧
    m₁.node 12 = none ∧ m₂.node 12 = none ∧ m₁.allocs = -5 ∧ m₂.allocs = -3 := by
  obtain ⟨m₁,m₂,erases,walks,roots,nodes,first,second⟩ := erasesWhole (fun out a => out ++ [a]) leaningRooted (show _ < 4 by decide) []
  exact ⟨m₁,m₂,erases,walks,(roots ()).1,(roots ()).2,(nodes 12).1,(nodes 12).2,first,second⟩

end wiping

end MipsElfExec.Avllib
