import MipsElfExec.Avllib.Insert

/-! Deletion from the trees of avlLib. A node with a left subtree is replaced by the last node before it; the array
of the ancestors then has to name the place in that node, not the one in the node that went. -/
namespace MipsElfExec.Avllib
open Access Avl

variable {ρ δ κ : Type} {compare : δ → κ → Int} {m : Memory ρ δ} {r : ρ} {fs gs : List (Frame (Addr × δ))}
  {t l s : Avl.Tree (Addr × δ)} {x z : Addr × δ} {h : Nat} {key : κ}

theorem lastBeforeZooms (l : Avl.Tree (Addr × δ)) (x : Addr × δ) (h : Nat) (s : Avl.Tree (Addr × δ)) (c : List (Frame (Addr × δ)))
    (rooted : Rooted m r (plug (c ++ gs) (.node l x h s))) (balanced : s.Balanced) {room : Nat} (low : s.height ≤ room) :
    lastBefore m room (places r (c ++ gs)).reverse (hole r (c ++ gs)) =
      .ok ((places r ((zoomLast l x h s c).1 ++ gs)).reverse,hole r ((zoomLast l x h s c).1 ++ gs),
        some (zoomLast l x h s c).2.2.1.1) := by
  induction s generalizing l x h c room with
  | nil =>
    obtain ⟨⟨here,-,-⟩,-⟩ := plugHolds.mp rooted.holds
    have place := getHole rooted
    rw [ptrNode] at place
    cases room with
    | zero =>
      rw [lastBefore,place]
      simp only [okBind,loadOk here,ptrNil,if_true,zoomLast]
      rfl
    | succ room =>
      rw [lastBefore,place]
      simp only [okBind,loadOk here,ptrNil,zoomLast]
      rfl
  | node rl y yh rr _ ih =>
    obtain ⟨⟨here,-,-⟩,-⟩ := plugHolds.mp rooted.holds
    have place := getHole rooted
    obtain ⟨-,right,height,-,-⟩ := balanced
    rw [heightNode,height] at low
    cases room with
    | zero => cases low
    | succ room =>
      have down := ih rl y yh (.right l x h :: c) rooted right (show rr.height ≤ room by omega)
      rw [List.cons_append,places,List.reverse_cons] at down
      rw [lastBefore,place]
      simp only [okBind,loadOk here,ptrNode,zoomLast]
      exact down

theorem placesPromoted (c : List (Frame (Addr × δ))) : ((places r (c ++ .left x h s :: gs)).reverse).set (gs.length + 1) (.left z.1) =
    (places r (c ++ .left z h s :: gs)).reverse := by
  induction c with
  | nil =>
    refine List.set_eq_of_length_le ?_
    rw [List.length_reverse,placesLength]
    exact Nat.le_refl _
  | cons f c ih =>
    rw [List.cons_append,List.cons_append,places,places,List.reverse_cons,List.reverse_cons]
    have long : (places r (c ++ .left x h s :: gs)).reverse.length = c.length + (gs.length + 1) := by
      rw [List.length_reverse,placesLength,List.length_append,List.length_cons]
    cases c with
    | nil =>
      rw [List.set_append_right _ _ (by rw [long,List.length_nil]; omega),long,List.length_nil,Nat.zero_add,Nat.sub_self]
      rfl
    | cons e c =>
      rw [List.set_append_left _ _ (by rw [long,List.length_cons]; omega),ih]
      cases e <;> rfl

section deletion
variable [DecidableEq ρ]

theorem deleteFirst (rooted : Rooted m r (plug gs (.node .nil x h s))) (balanced : (Avl.Tree.node .nil x h s).Balanced)
    (fits : Fits gs h) :
    ∃ m' m'',m.put (hole r gs) (ptr s) = .ok m' ∧ avlRebalance m' ((places r gs).reverse ++ [hole r gs]) gs.length = .ok m'' ∧
      Rooted m'' r (climb gs s) ∧ m''.node x.1 = m.node x.1 ∧ Elsewhere m m'' r (addrs (plug gs (.node .nil x h s)).toList) := by
  obtain ⟨⟨here,-,holds⟩,-⟩ := plugHolds.mp rooted.holds
  obtain ⟨-,right,height,-,upper⟩ := balanced
  have distinct := plugNodup.mp rooted.distinct
  obtain ⟨out,distinct⟩ := List.nodup_cons.mp (show (x.1 :: (addrs s.toList ++ addrs (span gs))).Nodup by
    simpa [Avl.Tree.toList] using distinct)
  rw [List.mem_append,not_or] at out
  obtain ⟨m',put,stands,same⟩ := putHole m s rooted rfl (fun _ _ => rfl) holds distinct
  obtain ⟨m'',ends,last,rest⟩ := climbs stands fits right (by simp only [Near,heightNil] at *; omega)
    (List.prefix_append _ [hole r gs])
  refine ⟨m',m'',put,ends,last,?_,elsewhereTrans (elsewhereMono same fun b mem => memPlug.mpr (.inr mem))
    (elsewhereMono rest fun b mem => memPlug.mpr ?_)⟩
  · rw [rest.node x.1 fun mem => (memPlug.mp mem).elim out.1 out.2,same.node x.1 out.2]
  · exact (memPlug.mp mem).imp (fun mem => memNode.mpr (.inr (.inr mem))) id

theorem deletePromotes {chain : List (Frame (Addr × δ))} {last : Avl.Tree (Addr × δ)} {zh : Nat}
    (rooted : Rooted m r (plug (chain ++ .left x h s :: gs) (.node last z zh .nil)))
    (balanced : last.Balanced) (height : zh = last.height + 1) (fits : Fits (chain ++ .left x h s :: gs) zh) :
    ∃ m₁ m₂ m',m.put (hole r (chain ++ .left x h s :: gs)) (ptr last) = .ok m₁ ∧
      m₁.node x.1 = some ⟨ptr (plug chain last),ptr s,h,x.2⟩ ∧ m₁.node z.1 = some ⟨ptr last,none,zh,z.2⟩ ∧
      (m₁.store z.1 ⟨ptr (plug chain last),ptr s,h,z.2⟩).put (hole r gs) (some z.1) = .ok m₂ ∧
      avlRebalance m₂ (places r (chain ++ .left z h s :: gs)).reverse (places r (chain ++ .left x h s :: gs)).reverse.length = .ok m' ∧
      Rooted m' r (climb (chain ++ .left z h s :: gs) last) ∧ m'.node x.1 = some ⟨ptr (plug chain last),ptr s,h,x.2⟩ ∧
      Elsewhere m m' r (addrs (plug (chain ++ .left x h s :: gs) (.node last z zh .nil)).toList) := by
  obtain ⟨⟨here,holds,-⟩,-⟩ := plugHolds.mp rooted.holds
  have distinct := plugNodup.mp rooted.distinct
  have listed : (addrs (Avl.Tree.node last z zh .nil).toList ++ addrs (span (chain ++ .left x h s :: gs))).Perm
      (z.1 :: (addrs last.toList ++ addrs (span (chain ++ .left x h s :: gs)))) := by
    simp only [Avl.Tree.toList,addrsAppend,addrsCons,addrsNil,List.append_assoc,List.cons_append,List.nil_append]
    exact List.perm_middle
  obtain ⟨out,distinct⟩ := List.nodup_cons.mp (listed.nodup_iff.mp distinct)
  rw [List.mem_append,not_or] at out
  obtain ⟨m₁,put,stands,same⟩ := putHole m last rooted rfl (fun _ _ => rfl) holds distinct
  have zHere : m₁.node z.1 = some ⟨ptr last,none,zh,z.2⟩ := by
    rw [same.node z.1 out.2,here]
    rfl
  rw [plugAppend] at stands
  have whole : Rooted m₁ r (plug gs (.node (plug chain last) x h s)) := stands
  obtain ⟨⟨xHere,left,right⟩,-⟩ := plugHolds.mp whole.holds
  have zOut : z.1 ∉ addrs (plug gs (.node (plug chain last) x h s)).toList := by
    intro mem
    have mem : z.1 ∈ addrs (plug (chain ++ .left x h s :: gs) last).toList := by
      rw [plugAppend]
      exact mem
    exact (memPlug.mp mem).elim out.1 out.2
  rw [memPlug,not_or,memNode,not_or,not_or] at zOut
  obtain ⟨⟨zLeft,other,zRight⟩,zFrames⟩ := zOut
  have topNodup := plugNodup.mp whole.distinct
  have named : addrs (Avl.Tree.node (plug chain last) x h s).toList ++ addrs (span gs) =
      addrs (plug chain last).toList ++ x.1 :: (addrs s.toList ++ addrs (span gs)) := by
    simp [Avl.Tree.toList]
  rw [named] at topNodup
  obtain ⟨fresh,gone⟩ := nodupExchange z.1 topNodup (by
    simp only [List.mem_append,List.mem_cons,not_or]
    exact ⟨zLeft,other,zRight,zFrames⟩)
  simp only [List.mem_append,List.mem_cons,not_or] at gone
  obtain ⟨xLeft,-,xRight,xFrames⟩ := gone
  obtain ⟨m₂,promotes,stands,above⟩ := putHole (m₁.store z.1 ⟨ptr (plug chain last),ptr s,h,z.2⟩)
    (.node (plug chain last) z h s) whole rfl (fun b mem => storeOther fun equal => zFrames (equal ▸ mem))
    ⟨storeSame zHere,holdsStore left zLeft,holdsStore right zRight⟩ (by simpa [Avl.Tree.toList] using fresh)
  have stands : Rooted m₂ r (plug (chain ++ .left z h s :: gs) last) := by
    rw [plugAppend]
    exact stands
  rw [fitsValue z] at fits
  obtain ⟨m',ends,final,rest⟩ := climbs stands fits balanced (by unfold Near; omega) (List.prefix_refl _)
  have length : (places r (chain ++ .left x h s :: gs)).reverse.length = (chain ++ .left z h s :: gs).length := by
    rw [List.length_reverse,placesLength]
    simp
  rw [length]
  have sub (b : Addr) (mem : b ∈ addrs (plug (chain ++ .left z h s :: gs) last).toList) :
      b = z.1 ∨ b ∈ addrs (plug (chain ++ .left x h s :: gs) last).toList := by
    rw [plugAppend] at mem ⊢
    rcases memPlug.mp mem with mem | mem
    · exact .inr (memPlug.mpr (.inl mem))
    · rcases memSpan.mp mem with mem | mem
      · exact .inl mem
      · exact .inr (memPlug.mpr (.inr (memSpan.mpr (.inr mem))))
  have inside (b : Addr) (mem : b ∈ addrs (plug (chain ++ .left x h s :: gs) last).toList) :
      b ∈ addrs (plug (chain ++ .left x h s :: gs) (.node last z zh .nil)).toList :=
    memPlug.mpr ((memPlug.mp mem).imp (fun mem => memNode.mpr (.inl mem)) id)
  have inZ : z.1 ∈ addrs (plug (chain ++ .left x h s :: gs) (.node last z zh .nil)).toList :=
    memPlug.mpr (.inl (memNode.mpr (.inr (.inl rfl))))
  refine ⟨m₁,m₂,m',put,xHere,zHere,promotes,ends,final,?_,elsewhereTrans
    (elsewhereMono same fun b mem => memPlug.mpr (.inr mem)) (elsewhereTrans (elsewhereStore inZ)
    (elsewhereTrans (elsewhereMono above fun b mem => inside b ?_) (elsewhereMono rest fun b mem => ?_)))⟩
  · rw [rest.node x.1 ?_,above.node x.1 xFrames,storeOther (Ne.symm other),xHere]
    intro mem
    rw [plugAppend] at mem
    rcases memPlug.mp mem with mem | mem
    · exact xLeft mem
    · rcases memSpan.mp mem with mem | mem | mem
      · exact other mem.symm
      · exact xRight mem
      · exact xFrames mem
  · rw [plugAppend]
    exact memPlug.mpr (.inr (memSpan.mpr (.inr (.inr mem))))
  · rcases sub b mem with rfl | mem
    · exact inZ
    · exact inside b mem

theorem deleteInner {ll lr : Avl.Tree (Addr × δ)} {y : Addr × δ} {yh : Nat} (rooted : Rooted m r (plug gs (.node (.node ll y yh lr) x h s)))
    (balanced : (plug gs (.node (.node ll y yh lr) x h s)).Balanced)
    (down : descend compare m key avlMaxHeight [] (.root r) = .ok (.found ((places r gs).reverse ++ [hole r gs]) (hole r gs) x.1)) :
    ∃ m' n,avlDelete compare m (.root r) key = .ok (m',some x.1) ∧
      Rooted m' r (climb ((zoomLast ll y yh lr []).1 ++ .left (zoomLast ll y yh lr []).2.2.1 h s :: gs) (zoomLast ll y yh lr []).2.1) ∧
      m'.node x.1 = some n ∧ n.data = x.2 ∧ Elsewhere m m' r (addrs (plug gs (.node (.node ll y yh lr) x h s)).toList) := by
  have low := rootedLow rooted balanced
  obtain ⟨⟨left,-,height,-,-⟩,fits⟩ := plugBalanced.mp balanced
  have deep := plugDeep fits
  obtain ⟨⟨here,-,-⟩,-⟩ := plugHolds.mp rooted.holds
  have length : ((places r gs).reverse ++ [hole r gs]).length = gs.length + 1 := by
    rw [List.length_append,List.length_reverse,placesLength]
    rfl
  have before := lastBeforeZooms ll y yh lr [] (show Rooted m r (plug ([] ++ .left x h s :: gs) (.node ll y yh lr)) from rooted) left.2.1
    (show lr.height ≤ avlMaxHeight - (gs.length + 1) by
      have lower := left.2.2.1
      simp only [heightNode] at *
      unfold avlMaxHeight
      omega)
  have joined := zoomLastPlug ll y yh lr []
  generalize zoomLast ll y yh lr [] = way at before joined ⊢
  obtain ⟨chain,last,z,zh⟩ := way
  have joined : plug chain (.node last z zh .nil) = .node ll y yh lr := joined
  have rooted : Rooted m r (plug (chain ++ .left x h s :: gs) (.node last z zh .nil)) := by
    rw [plugAppend,joined]
    exact rooted
  have all : (plug (chain ++ .left x h s :: gs) (.node last z zh .nil)).Balanced := by
    rw [plugAppend,joined]
    exact balanced
  obtain ⟨⟨lower,-,tall,-,-⟩,above⟩ := plugBalanced.mp all
  obtain ⟨m₁,m₂,m',put,xHere,zHere,promotes,ends,final,gone,rest⟩ :=
    deletePromotes rooted lower (by simpa using tall) above
  rw [plugAppend,joined] at rest
  refine ⟨m',_,?_,final,gone,rfl,rest⟩
  rw [ptrNode] at here
  have some_ : ¬(some y.1 : Option Addr) = none := fun none_ => by cases none_
  have zLoad : m.node z.1 = some ⟨ptr last,none,zh,z.2⟩ := (plugHolds.mp rooted.holds).1.1
  have enough : gs.length + 1 < avlMaxHeight := by
    simp only [heightNode] at *
    unfold avlMaxHeight
    omega
  have other : x.1 ≠ z.1 := by
    obtain ⟨-,-,apart⟩ := List.nodup_append.mp (plugNodup.mp rooted.distinct)
    refine fun same => apart z.1 (memNode.mpr (.inr (.inl rfl))) x.1 ?_ same.symm
    rw [(addrsPerm (spanPerm _).symm).mem_iff,aheadAppend,behindAppend]
    simp [ahead,behind]
  have again (k : AvlNode δ) : (m₁.store z.1 k).node x.1 = some ⟨ptr (plug chain last),ptr s,h,x.2⟩ := by
    rw [storeOther other,xHere]
  rw [List.nil_append,places,List.reverse_cons] at before
  have before : lastBefore m (avlMaxHeight - (gs.length + 1)) ((places r gs).reverse ++ [hole r gs]) (.left x.1) =
      .ok ((places r (chain ++ .left x h s :: gs)).reverse,hole r (chain ++ .left x h s :: gs),some z.1) := before
  simp only [avlDelete,down,okBind,loadOk here,if_neg some_,length,before,loadOk zLoad,put,loadOk xHere,setLeftOk zHere,
    loadOk (again _),setRightOk (storeSame zHere),setHeightOk (storeSame zHere),storeStore,promotes,if_pos enough,
    placesPromoted,ends]
  rfl

variable (compare key) in
theorem deleteTree (rooted : Rooted m r t) (balanced : t.Balanced) : match remove (toward compare key) t with
    | none => avlDelete compare m (.root r) key = .ok (m,none)
    | some (x,u) => ∃ m' n,avlDelete compare m (.root r) key = .ok (m',some x.1) ∧ Rooted m' r u ∧
        m'.node x.1 = some n ∧ n.data = x.2 ∧ Elsewhere m m' r (addrs t.toList) := by
  unfold remove
  cases ends : zoom (toward compare key) t [] with
  | mk gs focus =>
    cases focus with
    | nil =>
      have low := rootedLow rooted balanced
      have down := descends compare key (show Rooted m r (plug [] t) from rooted) balanced
        (show t.height ≤ avlMaxHeight by unfold avlMaxHeight; omega)
      rw [ends] at down
      exact congrArg (· >>= _) down
    | node l x h s =>
      obtain ⟨down,rfl⟩ := descendsFound rooted balanced ends
      cases l with
      | node ll y yh lr => exact deleteInner rooted balanced down
      | nil =>
        obtain ⟨even,fits⟩ := plugBalanced.mp balanced
        obtain ⟨⟨here,-,-⟩,-⟩ := plugHolds.mp rooted.holds
        obtain ⟨m',m'',put,climbed,final,same,rest⟩ := deleteFirst rooted even fits
        rw [ptrNil] at here
        refine ⟨m'',_,?_,final,same.trans here,rfl,rest⟩
        simp only [avlDelete,down,okBind,loadOk here,if_true,put]
        rw [List.length_append,List.length_reverse,placesLength,List.length_singleton,Nat.add_sub_cancel,climbed]
        rfl

end deletion

end MipsElfExec.Avllib
