import Mathlib.Data.Fintype.Card
import MipsElfExec.Lib.Run
import MipsElfExec.Snooping.Writer
import MipsElfExec.Snooping.Connection

/-! The data buffers. One link field threads every buffer onto the free list or onto the list of
the entry whose body it holds; the write task takes them off that list one at a time. -/
namespace MipsElfExec.Snooping
open CString MipsElfExec.Ring Run

def httpSpBufNumMax : Nat := 4096

abbrev BufId := Fin httpSpBufNumMax

abbrev BufLinks := Links (Option UrlId) BufId

abbrev BufNode := Node (Option UrlId) BufId

inductive WriteMode where
  | plain | deflate | drain
  deriving DecidableEq, Repr

inductive BufTask where
  | idle
  | loop (id : UrlId) (mode : WriteMode) (first : Bool)
  | hold (id : UrlId) (mode : WriteMode) (pbuf : BufId)
  deriving DecidableEq, Repr

-- `intact` is lost when a body is written behind the last buffer of its list.
structure Buffers where
  bufNum : Nat
  links : BufLinks
  bufLen : BufId → Nat := fun _ => 0
  urlDataCurrent : UrlId → BufNode := fun id => .head (some id)
  task : BufTask := .idle
  intact : Bool := true

inductive BufEvent where
  | init (id : UrlId)
  | alloc (id : UrlId) (dataLen : Nat)
  | capture (id : UrlId) (len : Nat)
  | write (id : UrlId) (mode : WriteMode)
  | get
  | put (ok : Bool)
  deriving DecidableEq, Repr

def Buffers.start : Buffers := { bufNum := httpSpBufNumMax,links := fill none httpSpBufNumMax (Nat.le_refl _) }

def allocTake (id : UrlId) : Nat → BufLinks × (BufId → Nat) → BufLinks × (BufId → Nat)
  | 0,taken => taken
  | n + 1,(links,len) =>
    match links.next (.head none) with
    | .head _ => (links,len)
    | .item b => allocTake id n (listAddTail (listDel links b) b (some id),Function.update len b 0)

def Buffers.alloc (s : Buffers) (id : UrlId) (dataLen : Nat) : Buffers :=
  let bufNum := word (dataLen + httpSpBufLenMax - 1) / httpSpBufLenMax
  let links := initListHead s.links (some id)
  if bufNum ≤ s.bufNum then
    let taken := allocTake id bufNum (links,s.bufLen)
    { s with
      links := taken.1
      bufLen := taken.2
      urlDataCurrent := Function.update s.urlDataCurrent id (taken.1.next (.head (some id)))
      bufNum := s.bufNum - bufNum }
  else { s with links := links }

def captureWalk (links : BufLinks) : Nat → BufNode → (BufId → Nat) → Nat → Option (BufNode × (BufId → Nat))
  | _,current,len,0 => some (current,len)
  | 0,_,_,_ => none
  | _ + 1,.head _,_,_ => none
  | fuel + 1,.item b,len,more =>
    if httpSpBufLenMax - len b < more then
      captureWalk links fuel (links.next (.item b)) (Function.update len b httpSpBufLenMax) (more - (httpSpBufLenMax - len b))
    else
      let filled := len b + more
      some (if filled = httpSpBufLenMax then links.next (.item b) else .item b,Function.update len b filled)

def Buffers.capture (s : Buffers) (id : UrlId) (len : Nat) : Buffers :=
  match captureWalk s.links (httpSpBufNumMax + 1) (s.urlDataCurrent id) s.bufLen len with
  | some (current,bufLen) =>
    { s with urlDataCurrent := Function.update s.urlDataCurrent id current,bufLen := bufLen }
  | none => { s with intact := false }

-- A deflated body without a buffer would be a null pointer.
def Buffers.get (s : Buffers) : Option Buffers :=
  match s.task with
  | .loop id mode first =>
    match s.links.next (.head (some id)) with
    | .head _ => if mode = .deflate ∧ first then none else some { s with task := .idle }
    | .item b => some { s with links := listDel s.links b,task := .hold id mode b }
  | _ => none

-- Only inflate can fail with a buffer in hand, and then the way out takes the next one instead.
def Buffers.put (s : Buffers) (ok : Bool) : Option Buffers :=
  match s.task with
  | .hold id mode b =>
    if ok then
      some { s with links := listAdd s.links b none,bufNum := (s.bufNum + 1) % 65536,task := .loop id mode false }
    else if mode = .deflate then some { s with task := .loop id .drain false }
    else none
  | _ => none

def Buffers.step (s : Buffers) : BufEvent → Option Buffers
  | .init id => some { s with links := initListHead s.links (some id) }
  | .alloc id dataLen => some (s.alloc id dataLen)
  | .capture id len => some (s.capture id len)
  | .write id mode => if s.task = .idle then some { s with task := .loop id mode true } else none
  | .get => s.get
  | .put ok => s.put ok

def Buffers.hand (s : Buffers) : Option BufId :=
  match s.task with
  | .hold _ _ b => some b
  | _ => none

structure Accounted (s : Buffers) (lists : Option UrlId → List BufId) : Prop where
  rings : Rings s.links lists
  bufNum : s.bufNum = (lists none).length
  somewhere : ∀ b,(∃ k,b ∈ lists k) ↔ s.hand ≠ some b
  intact : s.intact = true

def roomBehind (links : BufLinks) : Nat → BufNode → (BufId → Nat) → Nat
  | fuel + 1,.item b,len =>
    httpSpBufLenMax - len b + roomBehind links fuel (links.next (.item b)) (Function.update len b httpSpBufLenMax)
  | _,_,_ => 0

def Buffers.careful (s : Buffers) : BufEvent → Prop
  | .init id | .alloc id _ => listEmpty s.links (some id) = true
  | .capture id len => len ≤ roomBehind s.links (httpSpBufNumMax + 1) (s.urlDataCurrent id) s.bufLen
  | .put ok => ok = true
  | _ => True

variable {s t : Buffers} {lists : Option UrlId → List BufId} {id : UrlId}

theorem walkFits (links : BufLinks) (fuel : Nat) (current : BufNode) (len : BufId → Nat) (more : Nat) :
    (captureWalk links fuel current len more).isSome = true ↔ more ≤ roomBehind links fuel current len := by
  induction fuel generalizing current len more with
  | zero => cases more <;> simp [captureWalk,roomBehind]
  | succ fuel ih =>
    cases more with
    | zero => simp [captureWalk]
    | succ more =>
      cases current with
      | head k => simp [captureWalk,roomBehind]
      | item b =>
        simp only [captureWalk,roomBehind]
        split
        · rw [ih]
          omega
        · rename_i fits
          exact iff_of_true rfl (by omega)

theorem bufsSmall (C : Accounted s lists) : (lists none).length ≤ httpSpBufNumMax :=
  (List.Nodup.length_le_card (C.rings.nodup none)).trans (Nat.le_of_eq (Fintype.card_fin _))

theorem buffersStart : ∃ lists,Accounted Buffers.start lists := by
  obtain ⟨free,rings,mem,size⟩ := ringsFill (none : Option UrlId) httpSpBufNumMax (Nat.le_refl _)
  refine ⟨_,rings,?_,fun b => iff_of_true ⟨none,?_⟩ nofun,rfl⟩
  · rw [Function.update_self]
    exact size.symm
  · rw [Function.update_self]
    exact (mem b).mpr b.isLt

def moved (lists : Option UrlId → List BufId) (id : UrlId) (n : Nat) : Option UrlId → List BufId :=
  Function.update (Function.update lists none ((lists none).drop n)) (some id) (lists (some id) ++ (lists none).take n)

theorem allocRings {links : BufLinks} {n : Nat} (len : BufId → Nat) (R : Rings links lists) (enough : n ≤ (lists none).length) :
    Rings (allocTake id n (links,len)).1 (moved lists id n) := by
  induction n generalizing links len lists with
  | zero =>
    have same : moved lists id 0 = lists := by
      unfold moved
      simp
    rw [same]
    exact R
  | succ n ih =>
    have first := ringsFirst R none
    cases items : lists none with
    | nil =>
      rw [items] at enough
      cases enough
    | cons b rest =>
      rw [items] at first enough
      have items' : lists none = [] ++ b :: rest := items
      have added := ringsAddTail (ringsDel R items') (ringsGone R items') (some id)
      have rest' : Function.update (Function.update lists none rest) (some id)
          (Function.update lists none rest (some id) ++ [b]) none = rest := rfl
      have done := ih (Function.update len b 0) added (by rw [List.nil_append,rest']; exact Nat.le_of_succ_le_succ enough)
      have same : moved (Function.update (Function.update lists none ([] ++ rest)) (some id)
          (Function.update lists none ([] ++ rest) (some id) ++ [b])) id n = moved lists id (n + 1) := by
        funext k
        unfold moved
        rcases Decidable.em (k = some id) with rfl | other
        · simp [items]
        · cases k <;> simp [items,other]
      unfold allocTake
      rw [first,← same]
      exact done

theorem movedMem (lists : Option UrlId → List BufId) (id : UrlId) (n : Nat) (b : BufId) :
    (∃ k,b ∈ moved lists id n k) ↔ ∃ k,b ∈ lists k := by
  unfold moved
  constructor
  · rintro ⟨k,inside⟩
    rcases Decidable.em (k = some id) with rfl | other
    · rw [Function.update_self,List.mem_append] at inside
      exact inside.elim (fun old => ⟨_,old⟩) fun new => ⟨_,List.mem_of_mem_take new⟩
    · rw [Function.update_of_ne other,Function.update_apply] at inside
      split at inside
      · exact ⟨_,List.mem_of_mem_drop inside⟩
      · exact ⟨k,inside⟩
  · rintro ⟨k,inside⟩
    rcases Decidable.em (k = some id) with rfl | other
    · exact ⟨some id,by rw [Function.update_self]; exact List.mem_append_left _ inside⟩
    · cases k with
      | none =>
        rw [← List.take_append_drop n (lists none),List.mem_append] at inside
        rcases inside with front | back
        · exact ⟨some id,by rw [Function.update_self]; exact List.mem_append_right _ front⟩
        · exact ⟨none,back⟩
      | some j => exact ⟨some j,by rw [Function.update_of_ne other]; exact inside⟩

theorem initLost (C : Accounted s lists) {after : Option UrlId → List BufId}
    (same : ∀ b,(∃ k,b ∈ after k) ↔ ∃ k,b ∈ Function.update lists (some id) [] k) :
    (∀ b,(∃ k,b ∈ after k) ↔ s.hand ≠ some b) ↔ listEmpty s.links (some id) = true := by
  rw [ringsEmpty C.rings]
  constructor
  · intro somewhere
    refine List.eq_nil_iff_forall_not_mem.mpr fun b inside => ?_
    obtain ⟨k,found⟩ := (same b).mp ((somewhere b).mpr ((C.somewhere b).mp ⟨_,inside⟩))
    rcases Decidable.em (k = some id) with rfl | other
    · rw [Function.update_self] at found
      cases found
    · rw [Function.update_of_ne other] at found
      exact other (C.rings.apart found inside)
  · intro none_ b
    have kept : Function.update lists (some id) [] = lists := by
      rw [← none_]
      exact Function.update_eq_self _ _
    rw [same,kept]
    exact C.somewhere b

theorem initExact (C : Accounted s lists) :
    (∃ lists,Accounted { s with links := initListHead s.links (some id) } lists) ↔ listEmpty s.links (some id) = true := by
  have rings := ringsInit C.rings (some id)
  have free : Function.update lists (some id) [] none = lists none := rfl
  have lost := @initLost s lists id C _ fun _ => Iff.rfl
  refine ⟨fun ⟨after,C'⟩ => ?_,fun none_ => ⟨_,rings,C.bufNum.trans (congrArg List.length free).symm,lost.mpr none_,C.intact⟩⟩
  rw [ringsUnique C'.rings rings] at C'
  exact lost.mp C'.somewhere

theorem allocExact (C : Accounted s lists) (dataLen : Nat) :
    (∃ lists,Accounted (s.alloc id dataLen) lists) ↔ listEmpty s.links (some id) = true := by
  unfold Buffers.alloc
  dsimp only
  split
  · rename_i enough
    have free : Function.update lists (some id) [] none = lists none := rfl
    have rings := @allocRings _ id _ (word (dataLen + httpSpBufLenMax - 1) / httpSpBufLenMax) s.bufLen
      (ringsInit C.rings (some id)) (by rw [free,← C.bufNum]; exact enough)
    have lost := @initLost s lists id C _ (movedMem _ id (word (dataLen + httpSpBufLenMax - 1) / httpSpBufLenMax))
    refine ⟨fun ⟨after',C'⟩ => ?_,fun none_ => ⟨_,rings,?_,lost.mpr none_,C.intact⟩⟩
    · rw [ringsUnique C'.rings rings] at C'
      exact lost.mp C'.somewhere
    · have left : moved (Function.update lists (some id) []) id (word (dataLen + httpSpBufLenMax - 1) / httpSpBufLenMax) none =
          (lists none).drop (word (dataLen + httpSpBufLenMax - 1) / httpSpBufLenMax) := rfl
      rw [left,List.length_drop,← C.bufNum]
  · exact initExact C

theorem captureExact (C : Accounted s lists) (len : Nat) : (∃ lists,Accounted (s.capture id len) lists) ↔
    len ≤ roomBehind s.links (httpSpBufNumMax + 1) (s.urlDataCurrent id) s.bufLen := by
  rw [← walkFits]
  unfold Buffers.capture
  cases captureWalk s.links (httpSpBufNumMax + 1) (s.urlDataCurrent id) s.bufLen len with
  | none => exact iff_of_false (fun ⟨_,C'⟩ => Bool.false_ne_true C'.intact) nofun
  | some walked => exact iff_of_true ⟨lists,C.rings,C.bufNum,C.somewhere,C.intact⟩ rfl

theorem getConserved (C : Accounted s lists) (next : s.get = some t) : ∃ lists,Accounted t lists := by
  unfold Buffers.get at next
  split at next <;> try contradiction
  rename_i id mode first task
  have free (b : BufId) : ∃ k,b ∈ lists k := (C.somewhere b).mpr (by unfold Buffers.hand; rw [task]; nofun)
  split at next
  · split at next <;> try contradiction
    cases Option.some.inj next
    exact ⟨lists,C.rings,C.bufNum,fun b => iff_of_true (free b) nofun,C.intact⟩
  · rename_i b head
    cases Option.some.inj next
    have here := ringsFirst C.rings (some id)
    rw [head] at here
    split at here <;> try contradiction
    rename_i c rest items
    cases Node.item.inj here
    have items : lists (some id) = [] ++ b :: rest := items
    refine ⟨_,ringsDel C.rings items,C.bufNum,fun c => ?_,C.intact⟩
    simp only [memDel C.rings items,Buffers.hand,ne_eq,Option.some.injEq]
    constructor
    · rintro ⟨_,_,other⟩ same
      exact other same.symm
    · intro other
      obtain ⟨k,inside⟩ := free c
      exact ⟨k,inside,fun same => other same.symm⟩

theorem handExact (C : Accounted s lists) {ok : Bool} (next : s.put ok = some t) :
    (∃ lists,Accounted t lists) ↔ ok = true := by
  unfold Buffers.put at next
  split at next <;> try contradiction
  rename_i id mode b task
  have hand : s.hand = some b := by
    unfold Buffers.hand
    rw [task]
  have off : ¬∃ k,b ∈ lists k := fun inside => (C.somewhere b).mp inside hand
  split at next
  · rename_i fine
    cases Option.some.inj next
    have fresh : ∀ k,b ∉ lists k := not_exists.mp off
    refine iff_of_true ⟨_,ringsAdd C.rings fresh none,?_,fun c => ?_,C.intact⟩ fine
    · have small := bufsSmall C
      have bufNum := C.bufNum
      unfold httpSpBufNumMax at small
      rw [Function.update_self,List.length_cons]
      dsimp only
      omega
    · refine iff_of_true ?_ nofun
      simp only [memAdd]
      rcases Decidable.em (c = b) with same | other
      · exact ⟨none,Or.inr ⟨same,rfl⟩⟩
      · obtain ⟨k,inside⟩ := (C.somewhere c).mpr (by rw [hand]; exact fun same => other (Option.some.inj same).symm)
        exact ⟨k,Or.inl inside⟩
  · rename_i bad
    refine iff_of_false ?_ bad
    rintro ⟨after,C'⟩
    split at next <;> try contradiction
    cases Option.some.inj next
    rw [ringsUnique C'.rings C.rings] at C'
    exact off ((C'.somewhere b).mpr nofun)

section mirrors
variable {ctx : Ctx}

structure Mirrors (ctx : Ctx) (s : Buffers) (lists : Option UrlId → List BufId) : Prop where
  bufNum : ctx.bufs.bufNum = s.bufNum
  freeList : ctx.bufs.freeList = (lists none).map Fin.val
  dataBufList : ∀ id,(ctx.urls id).dataBufList = (lists (some id)).map Fin.val

theorem mirrorsModify (M : Mirrors ctx s lists) {bufs : BufPool} {f : UrlEntry → UrlEntry} {after : Option UrlId → List BufId}
    (bufNum : bufs.bufNum = t.bufNum) (free : bufs.freeList = (after none).map Fin.val)
    (mine : (f (ctx.urls id)).dataBufList = (after (some id)).map Fin.val) (others : ∀ j,j ≠ id → after (some j) = lists (some j)) :
    Mirrors ({ ctx with bufs := bufs }.modify id f) t after := by
  refine ⟨bufNum,free,fun j => ?_⟩
  unfold Ctx.modify
  dsimp only
  rw [Function.update_apply]
  split
  · rename_i same
    rw [same,mine]
  · rename_i other
    rw [others j other]
    exact M.dataBufList j

theorem initMirrors (M : Mirrors ctx s lists) {f : UrlEntry → UrlEntry} (empties : (f (ctx.urls id)).dataBufList = []) :
    Mirrors (ctx.modify id f) { s with links := initListHead s.links (some id) } (Function.update lists (some id) []) := by
  refine @mirrorsModify s _ lists id ctx M ctx.bufs f _ M.bufNum M.freeList ?_ fun j other => ?_
  · rw [empties,Function.update_self]
    rfl
  · exact Function.update_of_ne (fun same => other (Option.some.inj same)) _ _

theorem allocMirrors (M : Mirrors ctx s lists) (R : Rings s.links lists) (counted : s.bufNum = (lists none).length)
    {dataLen : Nat} (small : dataLen + httpSpBufLenMax ≤ 2 ^ 32) :
    ∃ lists,Rings (s.alloc id dataLen).links lists ∧ Mirrors (ngxHttpSnoopingCacheBufAlloc ctx dataLen id) (s.alloc id dataLen) lists := by
  have exact_ : word (dataLen + httpSpBufLenMax - 1) = dataLen + httpSpBufLenMax - 1 := Nat.mod_eq_of_lt (by omega)
  have init := ringsInit R (some id)
  unfold Buffers.alloc ngxHttpSnoopingCacheBufAlloc
  dsimp only
  rw [exact_,M.bufNum]
  split
  · rename_i enough
    refine ⟨_,@allocRings _ id _ _ s.bufLen init (Nat.le_trans enough (Nat.le_of_eq counted)),?_⟩
    refine @mirrorsModify s _ lists id ctx M _ _ _ rfl ?_ ?_ fun j other => ?_
    · rw [M.freeList,← List.map_drop]
      rfl
    · dsimp only
      rw [M.freeList,← List.map_take]
      unfold moved
      rw [Function.update_self,Function.update_self,List.nil_append]
      rfl
    · have differs : some j ≠ some id := fun same => other (Option.some.inj same)
      unfold moved
      rw [Function.update_of_ne differs,Function.update_of_ne (by simp),Function.update_of_ne differs]
  · exact ⟨_,init,initMirrors M rfl⟩

structure Counted (s : Buffers) (lists : Option UrlId → List BufId) : Prop where
  rings : Rings s.links lists
  bufNum : s.bufNum = (lists none).length

theorem getRun (C : Counted s lists) {mode : WriteMode} {first : Bool} {b : BufId} {rest : List BufId}
    (task : s.task = .loop id mode first) (items : lists (some id) = b :: rest) :
    ∃ t,s.step .get = some t ∧ t.task = .hold id mode b ∧ Counted t (Function.update lists (some id) rest) := by
  have head := ringsFirst C.rings (some id)
  rw [items] at head
  have items : lists (some id) = [] ++ b :: rest := items
  exact ⟨{ s with links := listDel s.links b,task := .hold id mode b },by simp only [Buffers.step,Buffers.get,task,head],rfl,
    ringsDel C.rings items,C.bufNum⟩

theorem putRun (C : Counted s lists) {mode : WriteMode} {b : BufId} (task : s.task = .hold id mode b)
    (fresh : ∀ k,b ∉ lists k) : ∃ t,s.step (.put true) = some t ∧ t.task = .loop id mode false ∧
      Counted t (Function.update lists none (b :: lists none)) := by
  refine ⟨{ s with links := listAdd s.links b none,bufNum := (s.bufNum + 1) % 65536,task := .loop id mode false },
    by simp only [Buffers.step,Buffers.put,task]; rfl,rfl,ringsAdd C.rings fresh none,?_⟩
  have small : (lists none).length ≤ 4096 :=
    (List.Nodup.length_le_card (C.rings.nodup none)).trans (Nat.le_of_eq (Fintype.card_fin _))
  have bufNum := C.bufNum
  rw [Function.update_self,List.length_cons]
  dsimp only
  omega

theorem loopRun (mode : WriteMode) (xs ys : List BufId) {s : Buffers} {lists : Option UrlId → List BufId} {first : Bool}
    (C : Counted s lists) (task : s.task = .loop id mode first) (items : lists (some id) = xs ++ ys) :
    ∃ es t last,run Buffers.step s es = some t ∧ t.task = .loop id mode last ∧ (last = true → first = true ∧ xs = []) ∧
      Counted t (Function.update (Function.update lists (some id) ys) none (xs.reverse ++ lists none)) := by
  induction xs generalizing s lists first with
  | nil =>
    have same : Function.update (Function.update lists (some id) ys) none (lists none) = lists := by
      funext k
      rcases Decidable.em (k = some id) with rfl | other
      · simpa using items.symm
      · cases k <;> simp [other]
    exact ⟨[],s,first,rfl,task,fun same => ⟨same,rfl⟩,by rw [List.reverse_nil,List.nil_append,same]; exact C⟩
  | cons x xs ih =>
    have items' : lists (some id) = [] ++ x :: (xs ++ ys) := items
    obtain ⟨held,got,holds,H⟩ := getRun C task items'
    have gone := ringsGone C.rings items'
    obtain ⟨freed,put,loops,F⟩ := putRun H holds gone
    obtain ⟨es,t,last,path,loops',ended,T⟩ := ih F loops (by rw [Function.update_of_ne (by simp),Function.update_self])
    refine ⟨.get :: .put true :: es,t,last,?_,loops',fun set => ((Bool.false_ne_true (ended set).1).elim),?_⟩
    · rw [run,got,Option.bind_some,run,put,Option.bind_some]
      exact path
    · have same : Function.update (Function.update (Function.update (Function.update lists (some id) (xs ++ ys)) none
            (x :: Function.update lists (some id) (xs ++ ys) none)) (some id) ys) none
          (xs.reverse ++ Function.update (Function.update lists (some id) (xs ++ ys)) none
            (x :: Function.update lists (some id) (xs ++ ys) none) none) =
          Function.update (Function.update lists (some id) ys) none ((x :: xs).reverse ++ lists none) := by
        funext k
        cases k with
        | none => simp
        | some j =>
          rcases Decidable.em (j = id) with rfl | other
          · simp
          · simp [other]
      rw [← same]
      exact T

theorem stopRun (C : Counted s lists) {mode : WriteMode} {first : Bool} (task : s.task = .loop id mode first)
    (items : lists (some id) = []) (started : ¬(mode = .deflate ∧ first = true)) :
    ∃ t,s.step .get = some t ∧ t.task = .idle ∧ Counted t lists := by
  have head := ringsFirst C.rings (some id)
  rw [items] at head
  refine ⟨{ s with task := .idle },?_,rfl,C.rings,C.bufNum⟩
  simp only [Buffers.step,Buffers.get,task,head]
  rw [if_neg started]

theorem runTrans {s t u : Buffers} {es fs : List BufEvent} (first : run Buffers.step s es = some t)
    (second : run Buffers.step t fs = some u) : run Buffers.step s (es ++ fs) = some u := by
  induction es generalizing s with
  | nil => cases Option.some.inj first; exact second
  | cons e es ih =>
    obtain ⟨v,next,rest⟩ := Option.bind_eq_some_iff.mp first
    exact Option.bind_eq_some_iff.mpr ⟨v,next,ih rest⟩

theorem freedMirrors (M : Mirrors ctx s lists) (counted : s.bufNum = (lists none).length) {freed : List BufId}
    {lost : List Nat → List Nat} (kept : lost ((lists (some id)).map Fin.val) = freed.map Fin.val)
    (T : Counted t (Function.update (Function.update lists (some id) []) none (freed.reverse ++ lists none))) :
    Mirrors (urlBufsFree ctx id lost) t (Function.update (Function.update lists (some id) []) none (freed.reverse ++ lists none)) := by
  have bufNum := T.bufNum
  have small : (freed.reverse ++ lists none).length ≤ 4096 := by
    have nodup := T.rings.nodup none
    rw [Function.update_self] at nodup
    exact (List.Nodup.length_le_card nodup).trans (Nat.le_of_eq (Fintype.card_fin _))
  rw [Function.update_self] at bufNum
  refine @mirrorsModify s t lists id ctx M _ _ _ ?_ ?_ ?_ fun j other => ?_
  · unfold bufsFree
    dsimp only
    rw [M.dataBufList,kept,M.bufNum,bufNum,counted]
    rw [List.length_append,List.length_reverse] at small ⊢
    rw [List.length_map]
    omega
  · unfold bufsFree
    dsimp only
    rw [M.dataBufList,kept,M.freeList,Function.update_self,List.map_append,List.map_reverse]
  · rw [Function.update_of_ne (by simp),Function.update_self]
    rfl
  · rw [Function.update_of_ne (by simp),Function.update_of_ne fun same => other (Option.some.inj same)]

theorem writeMirrors (M : Mirrors ctx s lists) (C : Counted s lists) {mode : WriteMode} (idle : s.task = .idle)
    (some_ : mode = .deflate → lists (some id) ≠ []) :
    ∃ es t lists,run Buffers.step s (.write id mode :: es) = some t ∧ t.task = .idle ∧ Counted t lists ∧
      Mirrors (urlBufsFree ctx id fun ids => ids) t lists := by
  have begun : s.step (.write id mode) = some { s with task := .loop id mode true } := by
    simp only [Buffers.step,idle,if_true]
  obtain ⟨es,u,last,path,loops,ended,U⟩ := @loopRun id mode (lists (some id)) [] { s with task := .loop id mode true } lists _
    ⟨C.rings,C.bufNum⟩ rfl (List.append_nil _).symm
  obtain ⟨t,stopped,done,T⟩ := stopRun U loops (by rw [Function.update_of_ne (by simp),Function.update_self])
    fun both => some_ both.1 (ended both.2).2
  refine ⟨es ++ [.get],t,_,?_,done,T,freedMirrors M C.bufNum rfl T⟩
  rw [run,begun,Option.bind_some]
  exact runTrans path (by rw [run,stopped,Option.bind_some]; rfl)

theorem brokenMirrors (M : Mirrors ctx s lists) (C : Counted s lists) {xs ys : List BufId} {b : BufId} (idle : s.task = .idle)
    (items : lists (some id) = xs ++ b :: ys) :
    ∃ es t lists,run Buffers.step s (.write id .deflate :: es) = some t ∧ t.task = .idle ∧ Counted t lists ∧
      Mirrors (urlBufsFree ctx id (·.eraseIdx xs.length)) t lists := by
  have begun : s.step (.write id .deflate) = some { s with task := .loop id .deflate true } := by
    simp only [Buffers.step,idle,if_true]
  obtain ⟨es,u,last,path,loops,_,U⟩ := @loopRun id .deflate xs (b :: ys) { s with task := .loop id .deflate true } lists _
    ⟨C.rings,C.bufNum⟩ rfl items
  obtain ⟨v,got,holds,V⟩ := getRun U loops (by rw [Function.update_of_ne (by simp),Function.update_self])
  have failed : v.step (.put false) = some { v with task := .loop id .drain false } := by
    simp only [Buffers.step,Buffers.put,holds]
    rfl
  obtain ⟨fs,w,last,path',loops',_,W⟩ := @loopRun id .drain ys [] { v with task := .loop id .drain false } _ _
    ⟨V.rings,V.bufNum⟩ rfl (by rw [Function.update_self,List.append_nil])
  obtain ⟨t,stopped,done,T⟩ := stopRun W loops' (by rw [Function.update_of_ne (by simp),Function.update_self]) (by simp)
  have same : Function.update (Function.update (Function.update (Function.update (Function.update lists (some id) (b :: ys)) none
        (xs.reverse ++ lists none)) (some id) ys) (some id) []) none (ys.reverse ++ Function.update (Function.update
        (Function.update lists (some id) (b :: ys)) none (xs.reverse ++ lists none)) (some id) ys none) =
      Function.update (Function.update lists (some id) []) none ((xs ++ ys).reverse ++ lists none) := by
    funext k
    cases k with
    | none => simp
    | some j =>
      rcases Decidable.em (j = id) with rfl | other
      · simp
      · simp [other]
  rw [same] at T
  refine ⟨es ++ .get :: .put false :: (fs ++ [.get]),t,_,?_,done,T,freedMirrors M C.bufNum ?_ T⟩
  · rw [run,begun,Option.bind_some]
    refine runTrans path ?_
    rw [run,got,Option.bind_some,run,failed,Option.bind_some]
    exact runTrans path' (by rw [run,stopped,Option.bind_some]; rfl)
  · rw [items,List.map_append,List.map_cons,List.eraseIdx_append_of_length_le (by simp)]
    simp

end mirrors

theorem bufferStep {e : BufEvent} (conserved : ∃ lists,Accounted s lists) (next : s.step e = some t) :
    ((∃ lists,Accounted t lists) ↔ s.careful e) ∧ ((∃ lists,Accounted t lists) → ∃ lists,Accounted t lists) := by
  obtain ⟨lists,C⟩ := conserved
  refine ⟨?_,fun same => same⟩
  cases e with
  | init id =>
    cases Option.some.inj next
    exact initExact C
  | alloc id dataLen =>
    cases Option.some.inj next
    exact allocExact C dataLen
  | capture id len =>
    cases Option.some.inj next
    exact captureExact C len
  | write id mode =>
    simp only [Buffers.step] at next
    split at next <;> try contradiction
    rename_i idle
    cases Option.some.inj next
    have hand : s.hand = none := by
      unfold Buffers.hand
      rw [idle]
    refine iff_of_true ⟨lists,C.rings,C.bufNum,fun b => ?_,C.intact⟩ trivial
    exact iff_of_true ((C.somewhere b).mpr (by rw [hand]; nofun)) nofun
  | get => exact iff_of_true (getConserved C next) trivial
  | put ok => exact handExact C next

/-- The count of free buffers is right and every buffer is on one list or in the hand of the writer, exactly as long
as lists are initialised only while they are empty, bodies fit, and inflate does not fail on a buffer. -/
theorem buffersConservedExactly (es : List BufEvent) :
    Along Buffers.step (fun _ _ t => ∃ lists,Accounted t lists) Buffers.start es ↔
      Along Buffers.step (fun s e _ => s.careful e) Buffers.start es :=
  alongExact bufferStep buffersStart

theorem bufferForgotten : ¬Along Buffers.step (fun _ _ t => ∃ lists,Accounted t lists) Buffers.start [.alloc 5 1,.alloc 5 1] := by
  intro all
  obtain ⟨⟨lists,C⟩,rest⟩ := all _ rfl
  exact absurd ((allocExact C 1).mp (rest _ rfl).1) (by decide)

end MipsElfExec.Snooping
