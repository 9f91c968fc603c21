import MipsElfExec.Avllib.Holds

/-! The rebalancing of avlLib.c on the memory: every turn of its loop makes of the tree at one of the ancestor
places what the tree tells, and it gets up to where the tree tells that it may stop. -/
namespace MipsElfExec.Avllib
open Access Avl

variable {ρ δ : Type} {m : Memory ρ δ} {r : ρ} {fs : List (Frame (Addr × δ))} {l s t : Avl.Tree (Addr × δ)} {x : Addr × δ} {h : Nat}

theorem heightOfPtr (holds : Holds m t) : m.heightOf (ptr t) = .ok t.height := by
  cases t with
  | nil => rfl
  | node l x h r => exact heightOfOk holds.1

theorem heightZero (balanced : t.Balanced) : t.height = 0 ↔ t = .nil := by
  cases t with
  | nil => simp
  | node l x h r => simp [balanced.2.2.1]

theorem reachesPtr (holds : Holds m t) (balanced : t.Balanced) (k : Nat) :
    m.reaches (ptr t) k = .ok (decide (t.height ≠ 0 ∧ k ≤ t.height)) := by
  cases t with
  | nil => rfl
  | node l x h r =>
    have some_ : h ≠ 0 := fun zero => by cases (heightZero balanced).mp zero
    simp [Memory.reaches,loadOk holds.1,Functor.map,Except.map,some_]

theorem placesLength (r : ρ) (fs : List (Frame (Addr × δ))) : (places r fs).length = fs.length := by
  induction fs with
  | nil => rfl
  | cons f fs ih => rw [places,List.length_cons,List.length_cons,ih]

section rotations
variable [DecidableEq ρ]

theorem rotateLeftOnce {ll lr : Avl.Tree (Addr × δ)} {y : Addr × δ} {yh : Nat}
    (rooted : Rooted m r (plug fs (.node (.node ll y yh lr) x h s))) (outer : ll.Balanced)
    (high : s.height + 1 < yh) (single : ll.height ≠ 0 ∧ lr.height ≤ ll.height) :
    ∃ m',rebalanceNode m (hole r fs) = .ok (m',false) ∧
      Rooted m' r (plug fs (.node ll y (lr.height + 2) (.node lr x (lr.height + 1) s))) ∧
      Elsewhere m m' r (addrs (plug fs (.node (.node ll y yh lr) x h s)).toList) := by
  obtain ⟨⟨top,⟨under,first,second⟩,third⟩,-⟩ := plugHolds.mp rooted.holds
  obtain ⟨left,-,out,outThird,apart⟩ := nodupNode (List.nodup_append.mp (plugNodup.mp rooted.distinct)).1
  obtain ⟨-,-,outFirst,outSecond,-⟩ := nodupNode left
  simp only [memNode,not_or] at out apart
  obtain ⟨xFirst,other,xSecond⟩ := out
  have yThird := apart y.1 (.inr (.inl rfl))
  rw [ptrNode] at top
  have changed : (m.store x.1 ⟨ptr lr,ptr s,lr.height + 1,x.2⟩).node y.1 = some ⟨ptr ll,ptr lr,yh,y.2⟩ := by
    rw [storeOther (Ne.symm other),under]
  have turned : Holds ((m.store x.1 ⟨ptr lr,ptr s,lr.height + 1,x.2⟩).store y.1 ⟨ptr ll,some x.1,lr.height + 2,y.2⟩)
      (.node ll y (lr.height + 2) (.node lr x (lr.height + 1) s)) :=
    ⟨storeSame changed,holdsStore (holdsStore first xFirst) outFirst,(storeOther other).trans (storeSame top),
      holdsStore (holdsStore second xSecond) outSecond,holdsStore (holdsStore third outThird) yThird⟩
  obtain ⟨m',put,fresh,same⟩ := putTurned rooted turned (by simp [Avl.Tree.toList]) rfl
    (elsewhereTrans (elsewhereStore (memNode.mpr (.inr (.inl rfl)))) (elsewhereStore (memNode.mpr (.inl (memNode.mpr (.inr (.inl rfl)))))))
  refine ⟨m',?_,fresh,same⟩
  have tall : (s.height : Int) - yh < -1 := by omega
  have place := getHole rooted
  rw [ptrNode] at put place
  unfold rebalanceNode
  simp only [okBind,place,loadOk top,loadOk under,heightOfOk under,heightOfPtr third,heightOfPtr second,
    reachesPtr first outer,if_pos tall,decide_eq_true single,if_true,setLeftOk top,setHeightOk (storeSame top),storeStore,
    setRightOk changed,setHeightOk (storeSame changed),put]
  rfl

theorem rotateLeftTwice {ll lrl lrr : Avl.Tree (Addr × δ)} {y z : Addr × δ} {yh zh : Nat}
    (rooted : Rooted m r (plug fs (.node (.node ll y yh (.node lrl z zh lrr)) x h s))) (outer : ll.Balanced)
    (high : s.height + 1 < yh) (double : ¬(ll.height ≠ 0 ∧ zh ≤ ll.height)) :
    ∃ m',rebalanceNode m (hole r fs) = .ok (m',false) ∧
      Rooted m' r (plug fs (.node (.node ll y zh lrl) z (zh + 1) (.node lrr x zh s))) ∧
      Elsewhere m m' r (addrs (plug fs (.node (.node ll y yh (.node lrl z zh lrr)) x h s)).toList) := by
  obtain ⟨⟨top,⟨under,first,inner,second,third⟩,fourth⟩,-⟩ := plugHolds.mp rooted.holds
  obtain ⟨left,-,out,xFourth,apart⟩ := nodupNode (List.nodup_append.mp (plugNodup.mp rooted.distinct)).1
  obtain ⟨-,middle,yFirst,outMiddle,apartFirst⟩ := nodupNode left
  obtain ⟨-,-,zSecond,zThird,-⟩ := nodupNode middle
  simp only [memNode,not_or] at out apart outMiddle apartFirst
  obtain ⟨xFirst,xy,xSecond,xz,xThird⟩ := out
  obtain ⟨ySecond,yz,yThird⟩ := outMiddle
  have yFourth := apart y.1 (.inr (.inl rfl))
  have zFourth := apart z.1 (.inr (.inr (.inr (.inl rfl))))
  have zFirst : z.1 ∉ addrs ll.toList := fun mem => (apartFirst z.1 mem).2.1 rfl
  simp only [ptrNode] at top under
  have innerAfter : (m.store y.1 ⟨ptr ll,ptr lrl,zh,y.2⟩).node z.1 = some ⟨ptr lrl,ptr lrr,zh,z.2⟩ := by
    rw [storeOther (Ne.symm yz),inner]
  have topAfter : (m.store y.1 ⟨ptr ll,ptr lrl,zh,y.2⟩).node x.1 = some ⟨some y.1,ptr s,h,x.2⟩ := by
    rw [storeOther xy,top]
  have innerLast : ((m.store y.1 ⟨ptr ll,ptr lrl,zh,y.2⟩).store x.1 ⟨ptr lrr,ptr s,zh,x.2⟩).node z.1 =
      some ⟨ptr lrl,ptr lrr,zh,z.2⟩ := by
    rw [storeOther (Ne.symm xz),innerAfter]
  have keeps {t : Avl.Tree (Addr × δ)} (holds : Holds m t) (y' : y.1 ∉ addrs t.toList) (x' : x.1 ∉ addrs t.toList)
      (z' : z.1 ∉ addrs t.toList) (n : AvlNode δ) : Holds (((m.store y.1 ⟨ptr ll,ptr lrl,zh,y.2⟩).store x.1
        ⟨ptr lrr,ptr s,zh,x.2⟩).store z.1 n) t := holdsStore (holdsStore (holdsStore holds y') x') z'
  have turned : Holds (((m.store y.1 ⟨ptr ll,ptr lrl,zh,y.2⟩).store x.1 ⟨ptr lrr,ptr s,zh,x.2⟩).store z.1
      ⟨some y.1,some x.1,zh + 1,z.2⟩) (.node (.node ll y zh lrl) z (zh + 1) (.node lrr x zh s)) := by
    refine ⟨storeSame innerLast,⟨?_,keeps first yFirst xFirst zFirst _,keeps second ySecond xSecond zSecond _⟩,
      ?_,keeps third yThird xThird zThird _,keeps fourth yFourth xFourth zFourth _⟩
    · rw [storeOther yz,storeOther (Ne.symm xy)]
      exact storeSame under
    · rw [storeOther xz]
      exact storeSame topAfter
  have inY : y.1 ∈ addrs (Avl.Tree.node (.node ll y yh (.node lrl z zh lrr)) x h s).toList := by simp only [memNode]; tauto
  have inX : x.1 ∈ addrs (Avl.Tree.node (.node ll y yh (.node lrl z zh lrr)) x h s).toList := by simp only [memNode]; tauto
  have inZ : z.1 ∈ addrs (Avl.Tree.node (.node ll y yh (.node lrl z zh lrr)) x h s).toList := by simp only [memNode]; tauto
  obtain ⟨m',put,fresh,same⟩ := putTurned rooted turned (by simp [Avl.Tree.toList]) rfl
    (elsewhereTrans (elsewhereStore inY) (elsewhereTrans (elsewhereStore inX) (elsewhereStore inZ)))
  refine ⟨m',?_,fresh,same⟩
  have tall : (s.height : Int) - yh < -1 := by omega
  have place := getHole rooted
  rw [ptrNode] at put place
  unfold rebalanceNode
  simp only [okBind,place,loadOk top,loadOk under,heightOfOk under,heightOfPtr fourth,heightOfOk inner,
    reachesPtr first outer,if_pos tall,decide_eq_false double,Bool.false_eq_true,if_false,loadOk inner,setRightOk under,
    setHeightOk (storeSame under),storeStore,loadOk innerAfter,setLeftOk topAfter,setHeightOk (storeSame topAfter),
    setLeftOk innerLast,setRightOk (storeSame innerLast),setHeightOk (storeSame innerLast),put]
  rfl

theorem rotateRightOnce {rl rr : Avl.Tree (Addr × δ)} {y : Addr × δ} {yh : Nat}
    (rooted : Rooted m r (plug fs (.node l x h (.node rl y yh rr)))) (outer : rr.Balanced)
    (high : l.height + 1 < yh) (single : rr.height ≠ 0 ∧ rl.height ≤ rr.height) :
    ∃ m',rebalanceNode m (hole r fs) = .ok (m',false) ∧
      Rooted m' r (plug fs (.node (.node l x (rl.height + 1) rl) y (rl.height + 2) rr)) ∧
      Elsewhere m m' r (addrs (plug fs (.node l x h (.node rl y yh rr))).toList) := by
  obtain ⟨⟨top,first,under,second,third⟩,-⟩ := plugHolds.mp rooted.holds
  obtain ⟨-,right,xFirst,out,apart⟩ := nodupNode (List.nodup_append.mp (plugNodup.mp rooted.distinct)).1
  obtain ⟨-,-,outSecond,outThird,-⟩ := nodupNode right
  simp only [memNode,not_or] at out apart
  obtain ⟨xSecond,other,xThird⟩ := out
  have yFirst : y.1 ∉ addrs l.toList := fun mem => (apart y.1 mem).2.1 rfl
  rw [ptrNode] at top
  have changed : (m.store x.1 ⟨ptr l,ptr rl,rl.height + 1,x.2⟩).node y.1 = some ⟨ptr rl,ptr rr,yh,y.2⟩ := by
    rw [storeOther (Ne.symm other),under]
  have turned : Holds ((m.store x.1 ⟨ptr l,ptr rl,rl.height + 1,x.2⟩).store y.1 ⟨some x.1,ptr rr,rl.height + 2,y.2⟩)
      (.node (.node l x (rl.height + 1) rl) y (rl.height + 2) rr) :=
    ⟨storeSame changed,⟨(storeOther other).trans (storeSame top),holdsStore (holdsStore first xFirst) yFirst,
      holdsStore (holdsStore second xSecond) outSecond⟩,holdsStore (holdsStore third xThird) outThird⟩
  have inX : x.1 ∈ addrs (Avl.Tree.node l x h (.node rl y yh rr)).toList := by simp only [memNode]; tauto
  have inY : y.1 ∈ addrs (Avl.Tree.node l x h (.node rl y yh rr)).toList := by simp only [memNode]; tauto
  obtain ⟨m',put,fresh,same⟩ := putTurned rooted turned (by simp [Avl.Tree.toList]) rfl
    (elsewhereTrans (elsewhereStore inX) (elsewhereStore inY))
  refine ⟨m',?_,fresh,same⟩
  have short : ¬((yh : Int) - l.height < -1) := by omega
  have tall : 1 < (yh : Int) - l.height := by omega
  have place := getHole rooted
  rw [ptrNode] at put place
  unfold rebalanceNode
  simp only [okBind,place,loadOk top,loadOk under,heightOfOk under,heightOfPtr first,heightOfPtr second,
    reachesPtr third outer,if_neg short,if_pos tall,decide_eq_true single,if_true,setRightOk top,
    setHeightOk (storeSame top),storeStore,setLeftOk changed,setHeightOk (storeSame changed),put]
  rfl

theorem rotateRightTwice {rll rlr rr : Avl.Tree (Addr × δ)} {y z : Addr × δ} {yh zh : Nat}
    (rooted : Rooted m r (plug fs (.node l x h (.node (.node rll z zh rlr) y yh rr)))) (outer : rr.Balanced)
    (high : l.height + 1 < yh) (double : ¬(rr.height ≠ 0 ∧ zh ≤ rr.height)) :
    ∃ m',rebalanceNode m (hole r fs) = .ok (m',false) ∧
      Rooted m' r (plug fs (.node (.node l x zh rll) z (zh + 1) (.node rlr y zh rr))) ∧
      Elsewhere m m' r (addrs (plug fs (.node l x h (.node (.node rll z zh rlr) y yh rr))).toList) := by
  obtain ⟨⟨top,first,under,⟨inner,second,third⟩,fourth⟩,-⟩ := plugHolds.mp rooted.holds
  obtain ⟨-,right,xFirst,out,apart⟩ := nodupNode (List.nodup_append.mp (plugNodup.mp rooted.distinct)).1
  obtain ⟨middle,-,outMiddle,yFourth,apartFourth⟩ := nodupNode right
  obtain ⟨-,-,zSecond,zThird,-⟩ := nodupNode middle
  simp only [memNode,not_or] at out apart outMiddle apartFourth
  obtain ⟨⟨xSecond,xz,xThird⟩,xy,xFourth⟩ := out
  obtain ⟨ySecond,yz,yThird⟩ := outMiddle
  have yFirst : y.1 ∉ addrs l.toList := fun mem => (apart y.1 mem).2.1 rfl
  have zFirst : z.1 ∉ addrs l.toList := fun mem => (apart z.1 mem).1.2.1 rfl
  have zFourth := apartFourth z.1 (.inr (.inl rfl))
  simp only [ptrNode] at top under
  have innerAfter : (m.store x.1 ⟨ptr l,ptr rll,zh,x.2⟩).node z.1 = some ⟨ptr rll,ptr rlr,zh,z.2⟩ := by
    rw [storeOther (Ne.symm xz),inner]
  have underAfter : (m.store x.1 ⟨ptr l,ptr rll,zh,x.2⟩).node y.1 = some ⟨some z.1,ptr rr,yh,y.2⟩ := by
    rw [storeOther (Ne.symm xy),under]
  have innerLast : ((m.store x.1 ⟨ptr l,ptr rll,zh,x.2⟩).store y.1 ⟨ptr rlr,ptr rr,zh,y.2⟩).node z.1 =
      some ⟨ptr rll,ptr rlr,zh,z.2⟩ := by
    rw [storeOther (Ne.symm yz),innerAfter]
  have keeps {t : Avl.Tree (Addr × δ)} (holds : Holds m t) (x' : x.1 ∉ addrs t.toList) (y' : y.1 ∉ addrs t.toList)
      (z' : z.1 ∉ addrs t.toList) (n : AvlNode δ) : Holds (((m.store x.1 ⟨ptr l,ptr rll,zh,x.2⟩).store y.1
        ⟨ptr rlr,ptr rr,zh,y.2⟩).store z.1 n) t := holdsStore (holdsStore (holdsStore holds x') y') z'
  have turned : Holds (((m.store x.1 ⟨ptr l,ptr rll,zh,x.2⟩).store y.1 ⟨ptr rlr,ptr rr,zh,y.2⟩).store z.1
      ⟨some x.1,some y.1,zh + 1,z.2⟩) (.node (.node l x zh rll) z (zh + 1) (.node rlr y zh rr)) := by
    refine ⟨storeSame innerLast,⟨?_,keeps first xFirst yFirst zFirst _,keeps second xSecond ySecond zSecond _⟩,
      ?_,keeps third xThird yThird zThird _,keeps fourth xFourth yFourth zFourth _⟩
    · rw [storeOther xz,storeOther xy]
      exact storeSame top
    · rw [storeOther yz]
      exact storeSame underAfter
  have inX : x.1 ∈ addrs (Avl.Tree.node l x h (.node (.node rll z zh rlr) y yh rr)).toList := by simp only [memNode]; tauto
  have inY : y.1 ∈ addrs (Avl.Tree.node l x h (.node (.node rll z zh rlr) y yh rr)).toList := by simp only [memNode]; tauto
  have inZ : z.1 ∈ addrs (Avl.Tree.node l x h (.node (.node rll z zh rlr) y yh rr)).toList := by simp only [memNode]; tauto
  obtain ⟨m',put,fresh,same⟩ := putTurned rooted turned (by simp [Avl.Tree.toList]) rfl
    (elsewhereTrans (elsewhereStore inX) (elsewhereTrans (elsewhereStore inY) (elsewhereStore inZ)))
  refine ⟨m',?_,fresh,same⟩
  have short : ¬((yh : Int) - l.height < -1) := by omega
  have tall : 1 < (yh : Int) - l.height := by omega
  have place := getHole rooted
  rw [ptrNode] at put place
  unfold rebalanceNode
  simp only [okBind,place,loadOk top,loadOk under,heightOfOk under,heightOfPtr first,heightOfOk inner,
    reachesPtr fourth outer,if_neg short,if_pos tall,decide_eq_false double,Bool.false_eq_true,if_false,loadOk inner,
    setRightOk top,setHeightOk (storeSame top),storeStore,loadOk innerAfter,setLeftOk underAfter,
    setHeightOk (storeSame underAfter),setLeftOk innerLast,setRightOk (storeSame innerLast),
    setHeightOk (storeSame innerLast),put]
  rfl

theorem rebalanceNodeTurn (rooted : Rooted m r (plug fs (.node l x h s))) (left : l.Balanced) (right : s.Balanced) :
    (l.height ≤ s.height + 1 ∧ s.height ≤ l.height + 1 ∧ h = max l.height s.height + 1 ∧
      rebalanceNode m (hole r fs) = .ok (m,true)) ∨
    ¬(l.height ≤ s.height + 1 ∧ s.height ≤ l.height + 1 ∧ h = max l.height s.height + 1) ∧
      ∃ m',rebalanceNode m (hole r fs) = .ok (m',false) ∧ Rooted m' r (plug fs (Avl.avlRebalance l x h s)) ∧
        Elsewhere m m' r (addrs (plug fs (.node l x h s)).toList) := by
  by_cases tall : s.height + 1 < l.height
  · refine .inr ⟨by omega,?_⟩
    rw [Avl.avlRebalance,if_pos tall]
    cases l with
    | nil => exact absurd tall (Nat.not_lt_zero _)
    | node ll y yh lr =>
      obtain ⟨outer,inner,height,-,-⟩ := left
      unfold rebalanceLeft
      dsimp only
      by_cases single : ll.height ≠ 0 ∧ lr.height ≤ ll.height
      · rw [if_pos single]
        exact rotateLeftOnce rooted outer tall single
      · rw [if_neg single]
        cases lr with
        | nil =>
          simp only [heightNode,heightNil] at *
          omega
        | node lrl z zh lrr => exact rotateLeftTwice rooted outer tall single
  · by_cases deep : l.height + 1 < s.height
    · refine .inr ⟨by omega,?_⟩
      rw [Avl.avlRebalance,if_neg tall,if_pos deep]
      cases s with
      | nil => exact absurd deep (Nat.not_lt_zero _)
      | node rl y yh rr =>
        obtain ⟨inner,outer,height,-,-⟩ := right
        unfold rebalanceRight
        dsimp only
        by_cases single : rr.height ≠ 0 ∧ rl.height ≤ rr.height
        · rw [if_pos single]
          exact rotateRightOnce rooted outer deep single
        · rw [if_neg single]
          cases rl with
          | nil =>
            simp only [heightNode,heightNil] at *
            omega
          | node rll z zh rlr => exact rotateRightTwice rooted outer deep single
    · obtain ⟨⟨top,first,second⟩,-⟩ := plugHolds.mp rooted.holds
      have place := getHole rooted
      rw [ptrNode] at place
      have short : ¬((s.height : Int) - l.height < -1) := by omega
      have low : ¬(1 < (s.height : Int) - l.height) := by omega
      have height : (if (l.height : Int) < s.height then (s.height : Int) else l.height) + 1 =
          ((max l.height s.height + 1 : Nat) : Int) := by
        split <;> omega
      by_cases same : h = max l.height s.height + 1
      · refine .inl ⟨by omega,by omega,same,?_⟩
        unfold rebalanceNode
        simp only [okBind,place,loadOk top,heightOfPtr first,heightOfPtr second,if_neg short,if_neg low,height]
        rw [if_pos (by rw [same])]
        rfl
      · refine .inr ⟨fun steady => same steady.2.2,?_⟩
        obtain ⟨-,-,out,outside,-⟩ := nodupNode (List.nodup_append.mp (plugNodup.mp rooted.distinct)).1
        rw [Avl.avlRebalance,if_neg tall,if_neg deep]
        have inX : x.1 ∈ addrs (Avl.Tree.node l x h s).toList := memNode.mpr (.inr (.inl rfl))
        refine ⟨m.store x.1 ⟨ptr l,ptr s,(max l.height s.height + 1 : Nat),x.2⟩,?_,?_,
          elsewhereStore (memPlug.mpr (.inl inX))⟩
        · unfold rebalanceNode
          simp only [okBind,place,loadOk top,heightOfPtr first,heightOfPtr second,if_neg short,if_neg low,height]
          rw [if_neg (by exact_mod_cast same),setHeightOk top]
          rfl
        · exact rootedInside rooted ⟨storeSame top,holdsStore first out,holdsStore second outside⟩ rfl rfl
            (elsewhereStore inX) rfl

theorem frameTurn {f : Frame (Addr × δ)} (rooted : Rooted m r (plug fs (f.fill t))) (balanced : t.Balanced)
    (sibling : f.sibling.Balanced) :
    (f.Steady t ∧ rebalanceNode m (hole r fs) = .ok (m,true)) ∨
    ¬f.Steady t ∧ ∃ m',rebalanceNode m (hole r fs) = .ok (m',false) ∧ Rooted m' r (plug fs (f.rebuild t)) ∧
      Elsewhere m m' r (addrs (plug fs (f.fill t)).toList) := by
  cases f with
  | left x h s =>
    rcases rebalanceNodeTurn rooted balanced sibling with ⟨lower,upper,height,stops⟩ | ⟨unsteady,turn⟩
    · exact .inl ⟨⟨lower,upper,height⟩,stops⟩
    · exact .inr ⟨unsteady,turn⟩
  | right l x h =>
    rcases rebalanceNodeTurn rooted sibling balanced with ⟨lower,upper,height,stops⟩ | ⟨unsteady,turn⟩
    · exact .inl ⟨⟨upper,lower,by rw [max_comm]; exact height⟩,stops⟩
    · exact .inr ⟨fun steady => unsteady ⟨steady.2.1,steady.1,by rw [max_comm]; exact steady.2.2⟩,turn⟩

omit [DecidableEq ρ] in
theorem nearestPlace {f : Frame (Addr × δ)} {ancestors : List (Place ρ)} (listed : (places r (f :: fs)).reverse <+: ancestors) :
    ancestors[fs.length]? = some (hole r fs) ∧ (places r fs).reverse <+: ancestors := by
  rw [places,List.reverse_cons] at listed
  refine ⟨?_,(List.prefix_append _ _).trans listed⟩
  obtain ⟨rest,rfl⟩ := listed
  rw [← placesLength r fs,← List.length_reverse,List.append_assoc,List.getElem?_append_right (Nat.le_refl _),Nat.sub_self]
  rfl

theorem climbs {n : Nat} {ancestors : List (Place ρ)} (rooted : Rooted m r (plug fs t)) (fits : Fits fs n)
    (balanced : t.Balanced) (near : Near t.height n) (listed : (places r fs).reverse <+: ancestors) :
    ∃ m',avlRebalance m ancestors fs.length = .ok m' ∧ Rooted m' r (climb fs t) ∧
      Elsewhere m m' r (addrs (plug fs t).toList) := by
  induction fs generalizing m t n with
  | nil => exact ⟨m,rfl,rooted,elsewhereRefl m r _⟩
  | cons f fs ih =>
    obtain ⟨here,above⟩ := fits
    obtain ⟨nearest,listed⟩ := nearestPlace listed
    rw [List.length_cons,avlRebalance,nearest,climb]
    dsimp only
    rw [plug] at rooted
    rcases frameTurn rooted balanced here.1 with ⟨steady,stops⟩ | ⟨unsteady,m',turns,fresh,same⟩
    · rw [stops,if_pos steady]
      exact ⟨m,rfl,rooted,elsewhereRefl m r _⟩
    · obtain ⟨even,high⟩ := rebuildBalanced here balanced near
      obtain ⟨m'',ends,last,rest⟩ := ih fresh above even high listed
      rw [plugSame fs (rebuildList f t)] at rest
      rw [turns,if_neg unsteady]
      exact ⟨m'',ends,last,elsewhereTrans same rest⟩

def rebalanceEach (m : Memory ρ δ) (ancestors : List (Place ρ)) : Nat → Checked (Memory ρ δ)
  | 0 => .ok m
  | count + 1 => match ancestors[count]? with
    | none => .error .read
    | some nodepp => do
      let (m,_) ← rebalanceNode m nodepp
      rebalanceEach m ancestors count

theorem eachSteady {ancestors : List (Place ρ)} (rooted : Rooted m r (plug fs t)) (fits : Fits fs t.height)
    (balanced : t.Balanced) (listed : (places r fs).reverse <+: ancestors) : rebalanceEach m ancestors fs.length = .ok m := by
  induction fs generalizing t with
  | nil => rfl
  | cons f fs ih =>
    obtain ⟨here,above⟩ := fits
    obtain ⟨nearest,listed⟩ := nearestPlace listed
    have steady : f.Steady t := ⟨here.2.2.1,here.2.2.2,here.2.1⟩
    rw [plug] at rooted
    rw [List.length_cons,rebalanceEach,nearest]
    dsimp only
    rcases frameTurn rooted balanced here.1 with ⟨-,stops⟩ | ⟨unsteady,-⟩
    · rw [stops]
      exact ih rooted (by rwa [fillHeight]) (fillBalanced.mpr ⟨balanced,here⟩) listed
    · exact absurd steady unsteady

/-- To stop where a height has not changed saves turns and nothing else: the memory is what it is when every ancestor
gets its turn. It holds the tree in which every node above has been balanced anew, which is balanced and has the same nodes
in the same order. -/
theorem rebalanceStops {n : Nat} (rooted : Rooted m r (plug fs t)) (fits : Fits fs n) (balanced : t.Balanced)
    (near : Near t.height n) : ∃ m',avlRebalance m (places r fs).reverse fs.length = .ok m' ∧
      rebalanceEach m (places r fs).reverse fs.length = .ok m' ∧ Rooted m' r (rebuildAll fs t) ∧
      (rebuildAll fs t).Balanced ∧ (rebuildAll fs t).toList = (plug fs t).toList := by
  have general {ancestors : List (Place ρ)} (listed : (places r fs).reverse <+: ancestors) :
      ∃ m',avlRebalance m ancestors fs.length = .ok m' ∧ rebalanceEach m ancestors fs.length = .ok m' ∧
        Rooted m' r (rebuildAll fs t) := by
    induction fs generalizing m t n with
    | nil => exact ⟨m,rfl,rfl,rooted⟩
    | cons f fs ih =>
      obtain ⟨here,above⟩ := fits
      obtain ⟨nearest,listed⟩ := nearestPlace listed
      rw [plug] at rooted
      rw [List.length_cons,avlRebalance,rebalanceEach,nearest,rebuildAll]
      dsimp only
      rcases frameTurn rooted balanced here.1 with ⟨steady,stops⟩ | ⟨unsteady,m',turns,fresh,-⟩
      · have fits : Fits fs (f.fill t).height := by rwa [fillHeight]
        have even : (f.fill t).Balanced := fillBalanced.mpr ⟨balanced,steadyFits here steady⟩
        rw [stops,rebuildSteady steady,rebuildFits fits]
        exact ⟨m,rfl,eachSteady rooted fits even listed,rooted⟩
      · obtain ⟨even,high⟩ := rebuildBalanced here balanced near
        rw [turns]
        exact ih fresh above even high listed
  obtain ⟨m',stops,each,stands⟩ := general (List.prefix_refl _)
  refine ⟨m',stops,each,stands,?_,?_⟩
  · rw [← climbAll fits balanced near]
    exact climbBalanced fits balanced near
  · rw [← climbAll fits balanced near]
    exact climbList fs t

end rotations

section sample

def hung : Memory Unit Nat := ((Memory.array Unit 0 12 [5,7] (by decide) (by decide)).store 0 ⟨none,some 12,1,5⟩).store 12 ⟨none,none,1,7⟩
  |>.hang () (some 0)

theorem rebalanceStops_hung : ∃ m',avlRebalance hung [.root ()] 1 = .ok m' ∧ rebalanceEach hung [.root ()] 1 = .ok m' ∧
    Rooted m' () (.node .nil (0,5) 2 (.node .nil (12,7) 1 .nil)) := by
  have rooted : Rooted hung () (plug [.right .nil (0,5) 1] (.node .nil (12,7) 1 .nil)) :=
    ⟨rfl,⟨rfl,trivial,rfl,trivial,trivial⟩,by decide⟩
  have fits : Fits [Frame.right .nil ((0,5) : Addr × Nat) 1] 0 := by simp [Fits,Frame.Fits,Frame.sibling,Frame.height,Avl.Tree.Balanced]
  obtain ⟨m',stops,each,stands,-,-⟩ := rebalanceStops rooted fits (by simp [Avl.Tree.Balanced]) (by simp [Near])
  exact ⟨m',stops,each,stands⟩

end sample

end MipsElfExec.Avllib
