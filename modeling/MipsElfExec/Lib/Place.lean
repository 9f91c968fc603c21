import MipsElfExec.Lib.Balance

/-! Places in height-balanced trees that a search ends at: what is put there, taken out or exchanged, and the list
of items that the tree then is. -/
namespace MipsElfExec.Avl

variable {α κ : Type}

def zoom (side : α → Ordering) : Tree α → List (Frame α) → List (Frame α) × Tree α
  | .nil,fs => (fs,.nil)
  | .node l x h r,fs => match side x with
    | .eq => (fs,.node l x h r)
    | .lt => zoom side l (.left x h r :: fs)
    | .gt => zoom side r (.right l x h :: fs)

def Cut (side : α → Ordering) (xs : List α) : Prop := xs.Pairwise fun x y => side x ≠ .gt → side y = .lt

section zooming
variable {side : α → Ordering} {t : Tree α} {fs : List (Frame α)}

theorem zoomPlug (side : α → Ordering) (t : Tree α) (fs : List (Frame α)) :
    plug (zoom side t fs).1 (zoom side t fs).2 = plug fs t := by
  induction t generalizing fs with
  | nil => rfl
  | node l x h r ihl ihr =>
    rw [zoom]
    cases side x with
    | eq => rfl
    | lt => exact ihl _
    | gt => exact ihr _

theorem zoomEnds (side : α → Ordering) (t : Tree α) (fs : List (Frame α)) :
    (zoom side t fs).2 = .nil ∨ ∃ l x h r,(zoom side t fs).2 = .node l x h r ∧ side x = .eq := by
  induction t generalizing fs with
  | nil => exact .inl rfl
  | node l x h r ihl ihr =>
    rw [zoom]
    cases here : side x with
    | eq => exact .inr ⟨l,x,h,r,rfl,here⟩
    | lt => exact ihl _
    | gt => exact ihr _

theorem zoomSides (fs : List (Frame α)) (cut : Cut side t.toList) (before : ∀ x ∈ ahead fs,side x = .gt) (after : ∀ x ∈ behind fs,side x = .lt) :
    (∀ x ∈ ahead (zoom side t fs).1,side x = .gt) ∧ ∀ x ∈ behind (zoom side t fs).1,side x = .lt := by
  induction t generalizing fs with
  | nil => exact ⟨before,after⟩
  | node l x h r ihl ihr =>
    obtain ⟨left,right,across⟩ := List.pairwise_append.mp cut
    obtain ⟨later,rest⟩ := List.pairwise_cons.mp right
    rw [zoom]
    cases here : side x with
    | eq => exact ⟨before,after⟩
    | lt =>
      refine ihl _ left before fun y mem => ?_
      rcases List.mem_cons.mp mem with rfl | mem
      · exact here
      · rcases List.mem_append.mp mem with mem | mem
        · exact later y mem (by rw [here]; decide)
        · exact after y mem
    | gt =>
      refine ihr _ rest (fun y mem => ?_) after
      rcases List.mem_append.mp mem with mem | mem
      · exact before y mem
      · rcases List.mem_append.mp mem with mem | mem
        · by_contra other
          have less := across y mem x List.mem_cons_self other
          cases here.symm.trans less
        · rw [List.mem_singleton.mp mem]
          exact here

theorem zoomBalanced (side : α → Ordering) (fs : List (Frame α)) (balanced : (plug fs t).Balanced) :
    (zoom side t fs).2.Balanced ∧ Fits (zoom side t fs).1 (zoom side t fs).2.height := by
  rw [← zoomPlug side t fs] at balanced
  exact plugBalanced.mp balanced

end zooming

def zoomLast : Tree α → α → Nat → Tree α → List (Frame α) → List (Frame α) × Tree α × α × Nat
  | l,x,h,.nil,fs => (fs,l,x,h)
  | l,x,h,.node rl y yh rr,fs => zoomLast rl y yh rr (.right l x h :: fs)

theorem zoomLastPlug (l : Tree α) (x : α) (h : Nat) (r : Tree α) (fs : List (Frame α)) :
    plug (zoomLast l x h r fs).1
      (.node (zoomLast l x h r fs).2.1 (zoomLast l x h r fs).2.2.1 (zoomLast l x h r fs).2.2.2 .nil) = plug fs (.node l x h r) := by
  induction r generalizing l x h fs with
  | nil => rfl
  | node rl y yh rr _ ih =>
    rw [zoomLast]
    exact ih rl y yh _

theorem zoomLastBehind (l : Tree α) (x : α) (h : Nat) (r : Tree α) (fs : List (Frame α)) :
    behind (zoomLast l x h r fs).1 = behind fs := by
  induction r generalizing l x h fs with
  | nil => rfl
  | node rl y yh rr _ ih =>
    rw [zoomLast]
    exact ih rl y yh _

def place (side : α → Ordering) (new : α) (t : Tree α) : Option (Tree α) := match zoom side t [] with
  | (fs,.nil) => some (climb fs (.node .nil new 1 .nil))
  | (_,.node _ _ _ _) => none

def exchange (side : α → Ordering) (new : α) (t : Tree α) : Option (α × Tree α) := match zoom side t [] with
  | (_,.nil) => none
  | (fs,.node l x h r) => some (x,plug fs (.node l new h r))

def remove (side : α → Ordering) (t : Tree α) : Option (α × Tree α) := match zoom side t [] with
  | (_,.nil) => none
  | (fs,.node .nil x _ r) => some (x,climb fs r)
  | (fs,.node (.node ll y yh lr) x h r) => match zoomLast ll y yh lr [] with
    | (chain,last,z,_) => some (x,climb (chain ++ .left z h r :: fs) last)

def before (side : α → Ordering) (xs : List α) : List α := xs.filter fun x => side x == .gt

def after (side : α → Ordering) (xs : List α) : List α := xs.filter fun x => side x == .lt

def found (side : α → Ordering) (xs : List α) : Option α := xs.find? fun x => side x == .eq

section parts
variable {side : α → Ordering} {t u : Tree α} {fs : List (Frame α)} {x new : α} {xs ys : List α}

theorem partsVacant (gt : ∀ x ∈ xs,side x = .gt) (lt : ∀ x ∈ ys,side x = .lt) :
    before side (xs ++ ys) = xs ∧ after side (xs ++ ys) = ys ∧ found side (xs ++ ys) = none := by
  unfold before after found
  refine ⟨?_,?_,?_⟩
  · rw [List.filter_append,List.filter_eq_self.mpr fun x mem => by rw [gt x mem]; rfl,
      List.filter_eq_nil_iff.mpr fun x mem => by rw [lt x mem]; decide,List.append_nil]
  · rw [List.filter_append,List.filter_eq_nil_iff.mpr fun x mem => by rw [gt x mem]; decide,
      List.filter_eq_self.mpr fun x mem => by rw [lt x mem]; rfl,List.nil_append]
  · rw [List.find?_eq_none]
    intro x mem
    rcases List.mem_append.mp mem with mem | mem
    · rw [gt x mem]
      decide
    · rw [lt x mem]
      decide

theorem partsFound (gt : ∀ x ∈ xs,side x = .gt) (here : side x = .eq) (lt : ∀ x ∈ ys,side x = .lt) :
    before side (xs ++ x :: ys) = xs ∧ after side (xs ++ x :: ys) = ys ∧ found side (xs ++ x :: ys) = some x := by
  obtain ⟨first,second,-⟩ := partsVacant gt lt
  unfold before after found at *
  rw [List.filter_append] at first second
  refine ⟨?_,?_,?_⟩
  · rwa [List.filter_append,List.filter_cons_of_neg (by rw [here]; decide)]
  · rwa [List.filter_append,List.filter_cons_of_neg (by rw [here]; decide)]
  · have none_ : xs.find? (fun x => side x == .eq) = none := by
      rw [List.find?_eq_none]
      intro y mem
      rw [gt y mem]
      decide
    rw [List.find?_append,none_,Option.none_or,List.find?_cons,here]
    rfl

theorem cutLeft (cut : Cut side (xs ++ x :: ys)) (reached : side x ≠ .lt) : ∀ y ∈ xs,side y = .gt := by
  obtain ⟨-,-,across⟩ := List.pairwise_append.mp cut
  intro y mem
  by_contra other
  exact reached (across y mem x List.mem_cons_self other)

theorem cutRight (cut : Cut side (xs ++ x :: ys)) (reached : side x ≠ .gt) : ∀ y ∈ ys,side y = .lt := by
  obtain ⟨-,right,-⟩ := List.pairwise_append.mp cut
  exact fun y mem => (List.pairwise_cons.mp right).1 y mem reached

theorem foundNode (cut : Cut side (xs ++ x :: ys)) : found side (xs ++ x :: ys) = match side x with
    | .eq => some x
    | .lt => found side xs
    | .gt => found side ys := by
  cases here : side x with
  | eq => exact (partsFound (cutLeft cut (by rw [here]; decide)) here (cutRight cut (by rw [here]; decide))).2.2
  | lt =>
    have none_ : found side (x :: ys) = none := by
      refine (partsVacant (show ∀ y ∈ ([] : List α),side y = .gt from fun _ mem => by cases mem) fun y mem => ?_).2.2
      rcases List.mem_cons.mp mem with rfl | mem
      · exact here
      · exact cutRight cut (by rw [here]; decide) y mem
    unfold found at *
    rw [List.find?_append,none_,Option.or_none]
  | gt =>
    have none_ : found side xs = none := by
      have vacant := partsVacant (cutLeft cut (by rw [here]; decide)) (show ∀ y ∈ ([] : List α),side y = .lt from fun _ mem => by cases mem)
      rw [List.append_nil] at vacant
      exact vacant.2.2
    unfold found at *
    rw [List.find?_append,none_,Option.none_or,List.find?_cons,here]
    rfl

theorem afterNode (cut : Cut side (xs ++ x :: ys)) : (after side (xs ++ x :: ys)).head? =
    if side x = .lt then (after side xs).head?.or (some x) else (after side ys).head? := by
  unfold after
  rw [List.filter_append,List.filter_cons]
  split
  · rename_i here
    rw [if_pos (beq_iff_eq.mp here),List.head?_append]
    rfl
  · rename_i other
    have reached : side x ≠ .lt := fun same => other (beq_iff_eq.mpr same)
    have none_ : xs.filter (fun x => side x == .lt) = [] := by
      rw [List.filter_eq_nil_iff]
      intro y mem
      rw [cutLeft cut reached y mem]
      decide
    rw [if_neg reached,none_,List.nil_append]

theorem beforeNode (cut : Cut side (xs ++ x :: ys)) : (before side (xs ++ x :: ys)).getLast? =
    if side x = .gt then (before side ys).getLast?.or (some x) else (before side xs).getLast? := by
  unfold before
  rw [List.filter_append,List.filter_cons]
  split
  · rename_i here
    rw [if_pos (beq_iff_eq.mp here),List.getLast?_append,List.getLast?_cons]
    cases (ys.filter fun x => side x == .gt).getLast? <;> rfl
  · rename_i other
    have reached : side x ≠ .gt := fun same => other (beq_iff_eq.mpr same)
    have none_ : ys.filter (fun x => side x == .gt) = [] := by
      rw [List.filter_eq_nil_iff]
      intro y mem
      rw [cutRight cut reached y mem]
      decide
    rw [if_neg reached,none_,List.append_nil]

theorem zoomVacant (cut : Cut side t.toList) (ends : zoom side t [] = (fs,.nil)) :
    before side t.toList = ahead fs ∧ after side t.toList = behind fs ∧ found side t.toList = none := by
  have whole := congrArg Tree.toList (zoomPlug side t [])
  obtain ⟨gt,lt⟩ := zoomSides [] cut (fun _ mem => by cases mem) (fun _ mem => by cases mem)
  rw [ends] at whole gt lt
  rw [plugList] at whole
  rw [show t.toList = ahead fs ++ behind fs from whole.symm]
  exact partsVacant gt lt

theorem zoomFound {l r : Tree α} {h : Nat} (cut : Cut side t.toList) (ends : zoom side t [] = (fs,.node l x h r)) :
    before side t.toList = ahead fs ++ l.toList ∧ after side t.toList = r.toList ++ behind fs ∧ found side t.toList = some x := by
  have whole := congrArg Tree.toList (zoomPlug side t [])
  obtain ⟨gt,lt⟩ := zoomSides [] cut (fun _ mem => by cases mem) (fun _ mem => by cases mem)
  have same := zoomEnds side t []
  rw [ends] at whole gt lt same
  have here : side x = .eq := by
    rcases same with none_ | ⟨l',x',h',r',node,here⟩
    · cases none_
    · cases node
      exact here
  have list : t.toList = (ahead fs ++ l.toList) ++ x :: (r.toList ++ behind fs) := by
    rw [← show (plug fs (.node l x h r)).toList = t.toList from whole,plugList]
    simp [Tree.toList]
  rw [list] at cut ⊢
  obtain ⟨-,right,across⟩ := List.pairwise_append.mp cut
  obtain ⟨later,-⟩ := List.pairwise_cons.mp right
  refine partsFound (fun y mem => ?_) here fun y mem => later y mem (by rw [here]; decide)
  by_contra other
  cases here.symm.trans (across y mem x List.mem_cons_self other)

theorem removeLast (l : Tree α) (x : α) (h : Nat) (r : Tree α) :
    ahead (zoomLast l x h r []).1 ++ ((zoomLast l x h r []).2.1.toList ++ [(zoomLast l x h r []).2.2.1]) =
      (Tree.node l x h r).toList := by
  have whole := congrArg Tree.toList (zoomLastPlug l x h r [])
  rw [plugList,zoomLastBehind] at whole
  rw [← show _ = (Tree.node l x h r).toList from whole]
  simp [behind,Tree.toList]

theorem aheadAppend (fs gs : List (Frame α)) : ahead (fs ++ gs) = ahead gs ++ ahead fs := by
  induction fs with
  | nil => simp [ahead]
  | cons f fs ih =>
    cases f with
    | left x h r => exact ih
    | right l x h => simp only [List.cons_append,ahead,ih,List.append_assoc]

theorem behindAppend (fs gs : List (Frame α)) : behind (fs ++ gs) = behind fs ++ behind gs := by
  induction fs with
  | nil => rfl
  | cons f fs ih =>
    cases f with
    | left x h r => simp only [List.cons_append,behind,ih,List.append_assoc]
    | right l x h => exact ih

theorem fitsValue {h n : Nat} {r : Tree α} (z : α) (chain : List (Frame α)) :
    Fits (chain ++ .left x h r :: fs) n ↔ Fits (chain ++ .left z h r :: fs) n := by
  induction chain generalizing n with
  | nil => exact Iff.rfl
  | cons f chain ih => exact and_congr Iff.rfl ih

theorem placeSome (cut : Cut side t.toList) (balanced : t.Balanced) (run : place side new t = some u) :
    u.Balanced ∧ u.toList = before side t.toList ++ new :: after side t.toList ∧ found side t.toList = none := by
  unfold place at run
  cases ends : zoom side t [] with
  | mk fs focus =>
    cases focus with
    | node l x h r =>
      rw [ends] at run
      cases run
    | nil =>
      rw [ends] at run
      cases run
      obtain ⟨first,second,absent⟩ := zoomVacant cut ends
      have fits := (zoomBalanced side [] balanced).2
      rw [ends] at fits
      refine ⟨climbBalanced fits (by simp [Tree.Balanced]) (by simp [Near]),?_,absent⟩
      rw [climbList,plugList,first,second]
      rfl

theorem placeNone (cut : Cut side t.toList) (run : place side new t = none) : ∃ x,found side t.toList = some x := by
  unfold place at run
  cases ends : zoom side t [] with
  | mk fs focus =>
    cases focus with
    | node l x h r => exact ⟨x,(zoomFound cut ends).2.2⟩
    | nil =>
      rw [ends] at run
      cases run

theorem exchangeSome (cut : Cut side t.toList) (balanced : t.Balanced) (run : exchange side new t = some (x,u)) :
    u.Balanced ∧ u.toList = before side t.toList ++ new :: after side t.toList ∧ found side t.toList = some x := by
  unfold exchange at run
  cases ends : zoom side t [] with
  | mk fs focus =>
    cases focus with
    | nil =>
      rw [ends] at run
      cases run
    | node l x h r =>
      rw [ends] at run
      cases run
      obtain ⟨first,second,there⟩ := zoomFound cut ends
      obtain ⟨even,fits⟩ := zoomBalanced side [] balanced
      rw [ends] at even fits
      refine ⟨plugBalanced.mpr ⟨even,fits⟩,?_,there⟩
      rw [plugList,first,second,Tree.toList]
      simp only [List.append_assoc,List.cons_append]

theorem exchangeNone (cut : Cut side t.toList) (run : exchange side new t = none) : found side t.toList = none := by
  unfold exchange at run
  cases ends : zoom side t [] with
  | mk fs focus =>
    cases focus with
    | nil => exact (zoomVacant cut ends).2.2
    | node l x h r =>
      rw [ends] at run
      cases run

theorem removeSome (cut : Cut side t.toList) (balanced : t.Balanced) (run : remove side t = some (x,u)) :
    u.Balanced ∧ u.toList = before side t.toList ++ after side t.toList ∧ found side t.toList = some x := by
  unfold remove at run
  cases ends : zoom side t [] with
  | mk fs focus =>
    cases focus with
    | nil =>
      rw [ends] at run
      cases run
    | node l x h r =>
      obtain ⟨first,second,there⟩ := zoomFound cut ends
      obtain ⟨even,fits⟩ := zoomBalanced side [] balanced
      rw [ends] at run even fits
      rw [first,second]
      cases l with
      | nil =>
        cases run
        obtain ⟨-,right,height,-,upper⟩ := even
        rw [heightNode,height] at fits
        refine ⟨climbBalanced fits right (by simp only [Near,heightNil] at *; omega),?_,there⟩
        rw [climbList,plugList,Tree.toList]
        simp only [List.append_assoc,List.nil_append]
      | node ll y yh lr =>
        cases run
        have whole := zoomLastPlug ll y yh lr []
        have listed := removeLast ll y yh lr
        have none_ := zoomLastBehind ll y yh lr []
        revert whole listed none_
        obtain ⟨chain,last,z,zh⟩ := zoomLast ll y yh lr []
        intro whole listed none_
        dsimp only at *
        have all : (plug (chain ++ .left x h r :: fs) (.node last z zh .nil)).Balanced := by
          rw [plugAppend,whole]
          exact (show (plug fs (.node (.node ll y yh lr) x h r)).Balanced from plugBalanced.mpr ⟨even,fits⟩)
        obtain ⟨⟨lower,-,height,-,-⟩,above⟩ := plugBalanced.mp all
        rw [heightNode,height,fitsValue z] at above
        refine ⟨climbBalanced above lower (by simp only [Near,heightNil] at *; omega),?_,there⟩
        rw [climbList,plugList,aheadAppend,behindAppend,none_,← listed]
        simp only [ahead,behind,List.append_assoc,List.nil_append,List.cons_append]

theorem removeNone (cut : Cut side t.toList) (run : remove side t = none) : found side t.toList = none := by
  unfold remove at run
  cases ends : zoom side t [] with
  | mk fs focus =>
    cases focus with
    | nil => exact (zoomVacant cut ends).2.2
    | node l x h r =>
      rw [ends] at run
      cases l with
      | nil => cases run
      | node ll y yh lr => cases run

end parts

section recursion
variable {compare : α → κ → Ordering} {new : α} {key : κ} {t : Tree α}

theorem insertZoom (balanced : t.Balanced) (fs : List (Frame α)) :
    rebuildAll fs (avlInsert compare new key t) = match zoom (compare · key) t fs with
      | (gs,.nil) => rebuildAll gs (.node .nil new 1 .nil)
      | (_,.node _ _ _ _) => rebuildAll fs t := by
  induction t generalizing fs with
  | nil => rfl
  | node l x h r ihl ihr =>
    obtain ⟨left,right,height,lower,upper⟩ := balanced
    rw [avlInsert,zoom]
    cases compare x key with
    | eq => rfl
    | lt =>
      have climbs := ihl left (.left x h r :: fs)
      have same : (Frame.left x h r).rebuild l = .node l x h r := rebuildSteady ⟨lower,upper,height⟩
      rw [rebuildAll,rebuildAll,same] at climbs
      exact climbs
    | gt =>
      have climbs := ihr right (.right l x h :: fs)
      have same : (Frame.right l x h).rebuild r = .node l x h r :=
        rebuildSteady ⟨upper,lower,by rw [max_comm]; exact height⟩
      rw [rebuildAll,rebuildAll,same] at climbs
      exact climbs

theorem placeInsert (balanced : t.Balanced) :
    (place (compare · key) new t).getD t = avlInsert compare new key t := by
  have recursive : avlInsert compare new key t = _ := insertZoom balanced []
  rw [recursive]
  unfold place
  have fits := (zoomBalanced (compare · key) [] balanced).2
  cases ends : zoom (compare · key) t [] with
  | mk fs focus =>
    cases focus with
    | node l x h r => rfl
    | nil =>
      rw [ends] at fits
      exact climbAll fits (by simp [Tree.Balanced]) (by simp [Near])

theorem insertBalanced (balanced : t.Balanced) : (avlInsert compare new key t).Balanced := by
  rw [← placeInsert balanced]
  unfold place
  have fits := (zoomBalanced (compare · key) [] balanced).2
  cases ends : zoom (compare · key) t [] with
  | mk fs focus =>
    cases focus with
    | node l x h r => exact balanced
    | nil =>
      rw [ends] at fits
      exact climbBalanced fits (by simp [Tree.Balanced]) (by simp [Near])

theorem insertFrom {y : α} (mem : y ∈ (avlInsert compare new key t).toList) : y = new ∨ y ∈ t.toList := by
  induction t with
  | nil => exact .inl (List.mem_singleton.mp mem)
  | node l x h r ihl ihr =>
    rw [avlInsert] at mem
    rw [Tree.toList,List.mem_append,List.mem_cons]
    cases side : compare x key with
    | eq =>
      rw [side,Tree.toList,List.mem_append,List.mem_cons] at mem
      exact .inr mem
    | lt =>
      rw [side] at mem
      dsimp only at mem
      rw [rebalanceList,List.mem_append,List.mem_cons] at mem
      rcases mem with mem | rest
      · exact (ihl mem).imp_right .inl
      · exact .inr (.inr rest)
    | gt =>
      rw [side] at mem
      dsimp only at mem
      rw [rebalanceList,List.mem_append,List.mem_cons] at mem
      rcases mem with mem | rfl | mem
      · exact .inr (.inl mem)
      · exact .inr (.inr (.inl rfl))
      · exact (ihr mem).imp_right fun mem => .inr (.inr mem)

end recursion

def Ascending (key : α → κ) (order : κ → κ → Ordering) (xs : List α) : Prop :=
  xs.Pairwise fun x y => order (key x) (key y) = .lt

section firsts
variable {key : α → κ} {order : κ → κ → Ordering} {xs : List α} {x : α}

theorem headLeast {p : α → Bool} (sorted : Ascending key order xs) (first : (xs.filter p).head? = some x) :
    x ∈ xs ∧ p x = true ∧ ∀ y ∈ xs,p y = true → y = x ∨ order (key x) (key y) = .lt := by
  obtain ⟨rest,split⟩ := List.head?_eq_some_iff.mp first
  have inside : x ∈ xs.filter p := by
    rw [split]
    exact List.mem_cons_self
  have kept : Ascending key order (xs.filter p) := sorted.filter p
  rw [split] at kept
  refine ⟨(List.mem_filter.mp inside).1,(List.mem_filter.mp inside).2,fun y mem holds => ?_⟩
  have among : y ∈ xs.filter p := List.mem_filter.mpr ⟨mem,holds⟩
  rw [split] at among
  exact (List.mem_cons.mp among).imp_right fun later => (List.pairwise_cons.mp kept).1 y later

theorem lastGreatest {p : α → Bool} (sorted : Ascending key order xs) (last : (xs.filter p).getLast? = some x) :
    x ∈ xs ∧ p x = true ∧ ∀ y ∈ xs,p y = true → y = x ∨ order (key y) (key x) = .lt := by
  obtain ⟨rest,split⟩ := List.getLast?_eq_some_iff.mp last
  have inside : x ∈ xs.filter p := by
    rw [split]
    exact List.mem_append_right _ List.mem_cons_self
  have kept : Ascending key order (xs.filter p) := sorted.filter p
  rw [split] at kept
  refine ⟨(List.mem_filter.mp inside).1,(List.mem_filter.mp inside).2,fun y mem holds => ?_⟩
  have among : y ∈ xs.filter p := List.mem_filter.mpr ⟨mem,holds⟩
  rw [split] at among
  rcases List.mem_append.mp among with earlier | same
  · exact .inr ((List.pairwise_append.mp kept).2.2 y earlier x List.mem_cons_self)
  · exact .inl (List.mem_singleton.mp same)

end firsts

section ordered
variable {key : α → κ} {order : κ → κ → Ordering} [Std.TransCmp order] {xs : List α} {k : κ} {x new : α}

def sideOf (key : α → κ) (order : κ → κ → Ordering) (k : κ) (x : α) : Ordering := order k (key x)

theorem memBefore {side : α → Ordering} : x ∈ before side xs ↔ x ∈ xs ∧ side x = .gt := by simp [before]

theorem memAfter {side : α → Ordering} : x ∈ after side xs ↔ x ∈ xs ∧ side x = .lt := by simp [after]

theorem cutAscending (sorted : Ascending key order xs) (k : κ) : Cut (sideOf key order k) xs := by
  refine List.Pairwise.imp (fun {x y} less other => ?_) sorted
  unfold sideOf at *
  cases first : order k (key x) with
  | gt => exact absurd first other
  | eq => exact Std.TransCmp.lt_of_eq_of_lt first less
  | lt => exact Std.TransCmp.lt_trans first less

theorem foundIff (sorted : Ascending key order xs) : found (sideOf key order k) xs = some x ↔ x ∈ xs ∧ sideOf key order k x = .eq := by
  unfold found
  induction xs with
  | nil => simp
  | cons y ys ih =>
    obtain ⟨later,rest⟩ := List.pairwise_cons.mp sorted
    rw [List.find?_cons,List.mem_cons]
    cases here : sideOf key order k y with
    | eq =>
      refine ⟨fun same => ?_,fun ⟨mem,same⟩ => ?_⟩
      · cases same
        exact ⟨.inl rfl,here⟩
      · rcases mem with rfl | mem
        · rfl
        · cases same.symm.trans (Std.TransCmp.lt_of_eq_of_lt here (later x mem))
    | lt =>
      refine (ih rest).trans ⟨fun ⟨mem,same⟩ => ⟨.inr mem,same⟩,fun ⟨mem,same⟩ => ⟨mem.resolve_left ?_,same⟩⟩
      rintro rfl
      cases here.symm.trans same
    | gt =>
      refine (ih rest).trans ⟨fun ⟨mem,same⟩ => ⟨.inr mem,same⟩,fun ⟨mem,same⟩ => ⟨mem.resolve_left ?_,same⟩⟩
      rintro rfl
      cases here.symm.trans same

theorem dropAscending (sorted : Ascending key order xs) (k : κ) :
    Ascending key order (before (sideOf key order k) xs ++ after (sideOf key order k) xs) := by
  refine List.pairwise_append.mpr ⟨sorted.filter _,sorted.filter _,fun x first y second => ?_⟩
  have low : order k (key x) = .gt := (memBefore.mp first).2
  have high : order k (key y) = .lt := (memAfter.mp second).2
  exact Std.TransCmp.lt_trans (Std.OrientedCmp.gt_iff_lt.mp low) high

theorem putAscending (sorted : Ascending key order xs) (named : order k (key new) = .eq) :
    Ascending key order (before (sideOf key order k) xs ++ new :: after (sideOf key order k) xs) := by
  obtain ⟨left,right,across⟩ := List.pairwise_append.mp (dropAscending sorted k)
  refine List.pairwise_append.mpr ⟨left,List.pairwise_cons.mpr ⟨fun y second => ?_,right⟩,fun x first y second => ?_⟩
  · have high : order k (key y) = .lt := (memAfter.mp second).2
    exact Std.TransCmp.lt_of_eq_of_lt (Std.OrientedCmp.eq_symm named) high
  · have low : order k (key x) = .gt := (memBefore.mp first).2
    rcases List.mem_cons.mp second with rfl | second
    · exact Std.TransCmp.lt_of_lt_of_eq (Std.OrientedCmp.gt_iff_lt.mp low) named
    · exact across x first y second

theorem putFound (sorted : Ascending key order xs) (named : order k (key new) = .eq) (k' : κ) :
    found (sideOf key order k') (before (sideOf key order k) xs ++ new :: after (sideOf key order k) xs) =
      if order k' k = .eq then some new else found (sideOf key order k') xs := by
  ext x
  rw [foundIff (putAscending sorted named),List.mem_append,List.mem_cons,memBefore,memAfter]
  unfold sideOf
  split
  · rename_i same
    have through : order k' (key x) = order k (key x) := Std.TransCmp.congr_left same
    have other : order k' (key new) = .eq := Std.TransCmp.eq_trans same named
    rw [through]
    constructor
    · rintro ⟨⟨-,gt⟩ | rfl | ⟨-,lt⟩,eq⟩
      · cases gt.symm.trans eq
      · rfl
      · cases lt.symm.trans eq
    · rintro ⟨⟩
      exact ⟨.inr (.inl rfl),named⟩
  · rename_i apart
    have foundOld := @foundIff _ _ key order _ xs k' x sorted
    unfold sideOf at foundOld
    rw [foundOld]
    constructor
    · rintro ⟨⟨mem,-⟩ | rfl | ⟨mem,-⟩,eq⟩
      · exact ⟨mem,eq⟩
      · exact absurd (Std.TransCmp.eq_trans eq (Std.OrientedCmp.eq_symm named)) apart
      · exact ⟨mem,eq⟩
    · rintro ⟨mem,eq⟩
      refine ⟨?_,eq⟩
      cases here : order k (key x) with
      | gt => exact .inl ⟨mem,rfl⟩
      | lt => exact .inr (.inr ⟨mem,rfl⟩)
      | eq => exact absurd (Std.TransCmp.eq_trans eq (Std.OrientedCmp.eq_symm here)) apart

theorem dropFound (sorted : Ascending key order xs) (k k' : κ) :
    found (sideOf key order k') (before (sideOf key order k) xs ++ after (sideOf key order k) xs) =
      if order k' k = .eq then none else found (sideOf key order k') xs := by
  ext x
  rw [foundIff (dropAscending sorted k),List.mem_append,memBefore,memAfter]
  unfold sideOf
  split
  · rename_i same
    have through : order k' (key x) = order k (key x) := Std.TransCmp.congr_left same
    rw [through]
    constructor
    · rintro ⟨⟨-,gt⟩ | ⟨-,lt⟩,eq⟩
      · cases gt.symm.trans eq
      · cases lt.symm.trans eq
    · rintro ⟨⟩
  · rename_i apart
    have foundOld := @foundIff _ _ key order _ xs k' x sorted
    unfold sideOf at foundOld
    rw [foundOld]
    constructor
    · rintro ⟨⟨mem,-⟩ | ⟨mem,-⟩,eq⟩
      · exact ⟨mem,eq⟩
      · exact ⟨mem,eq⟩
    · rintro ⟨mem,eq⟩
      refine ⟨?_,eq⟩
      cases here : order k (key x) with
      | gt => exact .inl ⟨mem,rfl⟩
      | lt => exact .inr ⟨mem,rfl⟩
      | eq => exact absurd (Std.TransCmp.eq_trans eq (Std.OrientedCmp.eq_symm here)) apart

end ordered

end MipsElfExec.Avl
