import MipsElfExec.Snooping.Publish

/-! How much of a response the buffers of an entry take, chain by chain: its body and no more, as long
as the chain that completes the body ends with it. -/
namespace MipsElfExec.Snooping
open CString Blocks Run

variable {con : Con} {ctx : Ctx} {id : UrlId} {n headerLen : Nat} {text : Bytes}

section buffers
variable {ids : List Nat} {data : Nat → Bytes} {current : Option Nat}

-- What is left to write when `url_data_current` has become the list head.
def bufSpill (ids : List Nat) : (Nat → Bytes) → Option Nat → Bytes → Bytes
  | data,some k,b :: bs =>
    let text := data k ++ [b]
    bufSpill ids (Function.update data k text) (if text.length = httpSpBufLenMax then bufNext ids k else some k) bs
  | _,_,bs => bs

theorem bufNextMem {k j : Nat} (next : bufNext ids k = some j) : j ∈ ids :=
  (List.dropWhile_sublist _).mem (List.mem_of_mem_drop (List.mem_of_mem_head? next))

theorem pushLength (data : Nat → Bytes) {k : Nat} (nodup : ids.Nodup) (mem : k ∈ ids) (b : Byte) :
    (ids.flatMap (Function.update data k (data k ++ [b]))).length = (ids.flatMap data).length + 1 := by
  induction ids with
  | nil => cases mem
  | cons j ks ih =>
    obtain ⟨new,nodup⟩ := List.nodup_cons.mp nodup
    rcases Decidable.em (k = j) with rfl | other
    · have same : ks.flatMap (Function.update data k (data k ++ [b])) = ks.flatMap data := by
        refine List.flatMap_congr fun i inside => Function.update_of_ne ?_ _ _
        rintro rfl
        exact new inside
      simp only [List.flatMap_cons,Function.update_self,same,List.length_append,List.length_singleton]
      omega
    · have inside : k ∈ ks := (List.mem_cons.mp mem).resolve_left other
      have rest := ih nodup inside
      simp only [List.flatMap_cons,Function.update_of_ne (Ne.symm other),List.length_append] at rest ⊢
      omega

theorem bufFillSpill (nodup : ids.Nodup) (data : Nat → Bytes) (current : Option Nat) (track : ∀ k ∈ current,k ∈ ids)
    (bs : Bytes) :
    (ids.flatMap (bufFill ids data current bs).1).length + (bufSpill ids data current bs).length =
      (ids.flatMap data).length + bs.length := by
  induction bs generalizing data current with
  | nil => cases current <;> rfl
  | cons b bs ih =>
    cases current with
    | none => rfl
    | some k =>
      have stays : ∀ j ∈ if (data k ++ [b]).length = httpSpBufLenMax then bufNext ids k else some k,j ∈ ids := by
        intro j here
        split at here
        · exact bufNextMem here
        · cases here
          exact track k rfl
      have more := ih (Function.update data k (data k ++ [b])) _ stays
      have pushed := pushLength data nodup (track k rfl) b
      unfold bufFill bufSpill
      dsimp only
      rw [List.length_cons]
      omega

theorem bufFillGrows (ids : List Nat) (data : Nat → Bytes) (current : Option Nat) (bs : Bytes) (k : Nat) :
    (data k).length ≤ ((bufFill ids data current bs).1 k).length := by
  induction bs generalizing data current with
  | nil => cases current <;> exact Nat.le_refl _
  | cons b bs ih =>
    cases current with
    | none => exact Nat.le_refl _
    | some j =>
      refine Nat.le_trans ?_ (ih _ _)
      rcases Decidable.em (k = j) with rfl | other
      · rw [Function.update_self,List.length_append]
        exact Nat.le_add_right _ _
      · rw [Function.update_of_ne other]

theorem flatMapGrows {data' : Nat → Bytes} (grows : ∀ k,(data k).length ≤ (data' k).length) (ids : List Nat) :
    (ids.flatMap data).length ≤ (ids.flatMap data').length := by
  induction ids with
  | nil => exact Nat.le_refl 0
  | cons k ks ih =>
    simp only [List.flatMap_cons,List.length_append]
    exact Nat.add_le_add (grows k) ih

def bodySpill (headerLen : Nat) (ctx : Ctx) (id : UrlId) (data : Bytes) : Bytes :=
  let e := ctx.urls id
  if e.urlFlags.cacheBufAlloc then
    bufSpill e.dataBufList ctx.bufs.data e.urlDataCurrent (bodyPart e.urlDataLen headerLen data)
  else []

def packetsSpill (headerLen : Nat) (id : UrlId) : Ctx → List EfBuf → Bytes
  | _,[] => []
  | ctx,p :: ps => bodySpill headerLen ctx id p.data ++ packetsSpill headerLen id (bodyCapture headerLen ctx id p.data) ps

theorem captureSame (headerLen : Nat) (ctx : Ctx) (id : UrlId) (bs : Bytes) :
    ((bodyCapture headerLen ctx id bs).urls id).dataBufList = (ctx.urls id).dataBufList ∧
    ((bodyCapture headerLen ctx id bs).urls id).urlFlags = (ctx.urls id).urlFlags := by
  unfold bodyCapture
  dsimp only
  split
  · rw [modifySelf]
    exact ⟨rfl,rfl⟩
  · rw [modifySelf]
    exact ⟨rfl,rfl⟩

theorem captureGrows (headerLen : Nat) (ctx : Ctx) (id : UrlId) (bs : Bytes) :
    (ctx.captured id).length ≤ ((bodyCapture headerLen ctx id bs).captured id).length := by
  unfold Ctx.captured
  rw [(captureSame headerLen ctx id bs).1]
  refine flatMapGrows (fun k => ?_) _
  unfold bodyCapture
  dsimp only
  split
  · exact bufFillGrows _ _ _ _ k
  · exact Nat.le_refl _

theorem packetsGrow (headerLen : Nat) (ctx : Ctx) (id : UrlId) (ps : List EfBuf) : (ctx.captured id).length ≤
    ((ps.foldl (fun ctx p => bodyCapture headerLen ctx id p.data) ctx).captured id).length := by
  induction ps generalizing ctx with
  | nil => exact Nat.le_refl _
  | cons p ps ih => exact Nat.le_trans (captureGrows headerLen ctx id p.data) (ih _)

theorem packetsAlloc (headerLen : Nat) (ctx : Ctx) (id : UrlId) (ps : List EfBuf) :
    ((ps.foldl (fun ctx p => bodyCapture headerLen ctx id p.data) ctx).urls id).urlFlags = (ctx.urls id).urlFlags := by
  induction ps generalizing ctx with
  | nil => rfl
  | cons p ps ih => exact (ih _).trans (captureSame headerLen ctx id p.data).2

theorem captureSpill (F : Filled ctx id n headerLen text) (pool : Pool ctx id)
    (alloc : (ctx.urls id).urlFlags.cacheBufAlloc = true) (bs : Bytes) :
    ((bodyCapture headerLen ctx id bs).captured id).length + (bodySpill headerLen ctx id bs).length =
      ((text ++ bs).drop headerLen).length := by
  have held := filledWhole F alloc
  obtain ⟨_,current,_⟩ := F.laid alloc
  have count := bufFillSpill (List.nodup_append.mp pool.nodup).1 ctx.bufs.data (ctx.urls id).urlDataCurrent
    (fun k here => fillingMem (current ▸ here)) (bodyPart (ctx.urls id).urlDataLen headerLen bs)
  unfold Ctx.captured at held ⊢
  rw [(captureSame headerLen ctx id bs).1,bodyPartDrop,List.length_append,← F.counted,← held,← count]
  unfold bodyCapture bodySpill
  dsimp only
  rw [if_pos alloc,if_pos alloc]
  rfl

theorem packetsSpare {ps : List EfBuf} (F : Filled ctx id n headerLen text) (pool : Pool ctx id)
    (alloc : (ctx.urls id).urlFlags.cacheBufAlloc = true) (fits : (text ++ pktBytes ps).length ≤ n + headerLen)
    (small : n + headerLen < 2 ^ 32) : packetsSpill headerLen id ctx ps = [] := by
  induction ps generalizing ctx text with
  | nil => rfl
  | cons p ps ih =>
    have more : text ++ pktBytes (p :: ps) = text ++ p.data ++ pktBytes ps := by simp [pktBytes]
    rw [more] at fits
    have one : (text ++ p.data).length ≤ n + headerLen := by
      rw [List.length_append] at fits
      omega
    obtain ⟨filled,pool'⟩ := captureFilled F pool one small
    have flags := (captureSame headerLen ctx id p.data).2
    have alloc' : ((bodyCapture headerLen ctx id p.data).urls id).urlFlags.cacheBufAlloc = true := by
      rw [flags]
      exact alloc
    have none_ : bodySpill headerLen ctx id p.data = [] := by
      have count := captureSpill F pool alloc p.data
      rw [filledWhole filled alloc'] at count
      exact List.length_eq_zero_iff.mp (by omega)
    rw [packetsSpill,none_,ih filled pool' alloc' fits]
    rfl

theorem packetsOver {ps : List EfBuf} (F : Filled ctx id n headerLen text) (pool : Pool ctx id)
    (alloc : (ctx.urls id).urlFlags.cacheBufAlloc = true) (few : text.length ≤ n + headerLen)
    (over_ : n + headerLen < (text ++ pktBytes ps).length) (small : n + headerLen < 2 ^ 32) :
    packetsSpill headerLen id ctx ps ≠ [] ∨
      n < ((ps.foldl (fun ctx p => bodyCapture headerLen ctx id p.data) ctx).captured id).length := by
  induction ps generalizing ctx text with
  | nil =>
    rw [pktBytes,List.flatMap_nil,List.append_nil] at over_
    omega
  | cons p ps ih =>
    rcases Nat.lt_or_ge (n + headerLen) (text ++ p.data).length with past | fits
    · have count := captureSpill F pool alloc p.data
      have grows := packetsGrow headerLen (bodyCapture headerLen ctx id p.data) id ps
      rw [List.length_drop] at count
      cases spill : bodySpill headerLen ctx id p.data with
      | nil =>
        rw [spill] at count
        refine .inr (Nat.lt_of_lt_of_le ?_ grows)
        rw [List.length_nil] at count
        omega
      | cons b bs =>
        refine .inl ?_
        rw [packetsSpill,spill]
        exact List.cons_ne_nil _ _
    · obtain ⟨filled,pool'⟩ := captureFilled F pool fits small
      have flags := (captureSame headerLen ctx id p.data).2
      have more : text ++ pktBytes (p :: ps) = text ++ p.data ++ pktBytes ps := by simp [pktBytes]
      rw [more] at over_
      rcases ih filled pool' (by rw [flags]; exact alloc) fits over_ with spill | long
      · refine .inl fun none_ => spill ?_
        rw [packetsSpill] at none_
        exact (List.append_eq_nil_iff.mp none_).2
      · exact .inr long

end buffers

section response

structure Reception where
  con : Con
  ctx : Ctx
  seen : Bytes
  spilt : Bytes

def Chain.walk (chain : Chain) : List EfBuf := chain.pkts ++ chain.surplus

def Reception.step (id : UrlId) (s : Reception) (chain : Chain) : Option Reception :=
  if chain.count = 0 then none
  else if s.con.resState = .dataLine then
    let last := ngxHttpSnoopingCacheBuf s.con s.ctx id chain
    some ⟨last.1,last.2,s.seen ++ pktBytes chain.walk,
      s.spilt ++ packetsSpill s.con.responseHeaderLen id (bodyStart s.con s.ctx id) chain.walk⟩
  else some { s with seen := s.seen ++ pktBytes chain.walk }

structure Reception.captured (s : Reception) (id : UrlId) (n headerLen : Nat) : Prop where
  held : s.ctx.captured id = (s.seen.drop headerLen).take n
  inside : s.spilt = []
  done : s.con.resState = .done ↔ n ≤ (s.seen.drop headerLen).length

def Reception.fits (s : Reception) (n headerLen : Nat) (chain : Chain) : Prop :=
  s.con.resState = .dataLine → s.seen.length + (pktBytes chain.walk).length ≤ n + headerLen

structure Opening (con : Con) (ctx : Ctx) (id : UrlId) (n headerLen : Nat) : Prop where
  fresh : Fresh ctx id n
  pool : Pool ctx id
  some_ : 0 < n
  enough : bufNeed n ≤ ctx.bufs.bufNum
  state : con.resState = .dataLine
  plain : con.transEncodingType = false
  dataLen : con.dataLen = n
  header : con.responseHeaderLen = headerLen
  small : n + headerLen < 2 ^ 32

structure Filling (con : Con) (ctx : Ctx) (id : UrlId) (n headerLen : Nat) (seen : Bytes) : Prop where
  filled : Filled (bodyStart con ctx id) id n headerLen seen
  pool : Pool (bodyStart con ctx id) id
  alloc : ((bodyStart con ctx id).urls id).urlFlags.cacheBufAlloc = true

structure Receiving (s : Reception) (id : UrlId) (n headerLen : Nat) : Prop where
  some_ : 0 < n
  plain : s.con.transEncodingType = false
  dataLen : s.con.dataLen = n
  header : s.con.responseHeaderLen = headerLen
  small : n + headerLen < 2 ^ 32
  resLen : (s.ctx.urls id).urlResLen = n
  inside : s.spilt = []
  phase : s.con.resState = .dataLine ∧ s.seen.length < n + headerLen ∧ Filling s.con s.ctx id n headerLen s.seen ∨
    s.con.resState = .done ∧ n + headerLen ≤ s.seen.length ∧ s.ctx.captured id = (s.seen.drop headerLen).take n

theorem startAlloc (fresh : Fresh ctx id n) (pool : Pool ctx id) (some_ : 0 < n) (enough : bufNeed n ≤ ctx.bufs.bufNum)
    (same : con.dataLen = n) : ((bodyStart con ctx id).urls id).urlFlags.cacheBufAlloc = true := by
  have need : 0 < bufNeed n := by
    have room := bufNeedRoom n
    rcases Nat.eq_zero_or_pos (bufNeed n) with none_ | some_
    · rw [none_] at room
      omega
    · exact some_
  unfold bodyStart
  rw [if_neg (by rw [fresh.start]; exact Bool.false_ne_true),same]
  dsimp only
  rw [if_pos (by rw [modifySelf]; exact fresh.rule)]
  have entry := (@allocGets (ctx.modify id fun e => { e with dataStart := true }) id n enough).1
  generalize ngxHttpSnoopingCacheBufAlloc (ctx.modify id fun e => { e with dataStart := true }) n id = mid at entry ⊢
  have taken : (mid.urls id).dataBufList ≠ [] := by
    rw [entry]
    have long : (ctx.bufs.freeList.take (bufNeed n)).length = bufNeed n :=
      List.length_take_of_le (enough.trans pool.counted)
    intro none_
    rw [show ctx.bufs.freeList.take (bufNeed n) = [] from none_] at long
    exact Nat.ne_of_lt need long
  rw [if_neg taken,Ctx.setFlags,modifySelf]
  rfl

theorem openingReceives (start : Opening con ctx id n headerLen) : Receiving ⟨con,ctx,[],[]⟩ id n headerLen := by
  obtain ⟨fresh,pool,some_,enough,state,plain,dataLen,header,small⟩ := start
  obtain ⟨filled,ready⟩ := startFilled fresh pool dataLen headerLen
  have few : ([] : Bytes).length < n + headerLen := by
    rw [List.length_nil]
    omega
  exact ⟨some_,plain,dataLen,header,small,fresh.resLen,rfl,
    .inl ⟨state,few,filled,ready,startAlloc fresh pool some_ enough dataLen⟩⟩

theorem endCaptured (con : Con) (ctx : Ctx) (id : UrlId) : (bodyEnd con ctx id).2.captured id = ctx.captured id ∧
    ((bodyEnd con ctx id).2.urls id).urlResLen = (ctx.urls id).urlResLen := by
  unfold bodyEnd Ctx.captured
  split
  · rw [modifySelf]
    exact ⟨rfl,rfl⟩
  · exact ⟨rfl,rfl⟩

theorem cacheBufCaptures (plain : con.transEncodingType = false) (resLen : (ctx.urls id).urlResLen ≠ 0) {chain : Chain}
    (some_ : chain.count ≠ 0) : ngxHttpSnoopingCacheBuf con ctx id chain = bodyEnd con (bodyPackets con ctx id chain) id := by
  refine if_neg ?_
  rw [plain]
  simp [resLen,some_]

theorem bodySize {seen : Bytes} (some_ : 0 < n) : n ≤ (seen.drop headerLen).length ↔ n + headerLen ≤ seen.length := by
  rw [List.length_drop]
  omega

theorem endCases (con : Con) (ctx : Ctx) (id : UrlId) :
    word (con.dataLen + con.responseHeaderLen) ≤ (ctx.urls id).urlDataLen ∧
      (bodyEnd con ctx id).1 = { con with resState := .done } ∨
    (ctx.urls id).urlDataLen < word (con.dataLen + con.responseHeaderLen) ∧ bodyEnd con ctx id = (con,ctx) := by
  unfold bodyEnd
  split
  · rename_i enough
    exact .inl ⟨enough,rfl⟩
  · rename_i short
    exact .inr ⟨Nat.lt_of_not_le short,rfl⟩

theorem receptionOver {start : Ctx} {ps : List EfBuf} {con' : Con} {mid ctx' : Ctx} {seen : Bytes}
    (filled : Filled start id n headerLen seen) (pool : Pool start id)
    (alloc : (start.urls id).urlFlags.cacheBufAlloc = true) (few : seen.length ≤ n + headerLen)
    (past : n + headerLen < (seen ++ pktBytes ps).length) (small : n + headerLen < 2 ^ 32)
    (packets : mid = ps.foldl (fun ctx p => bodyCapture headerLen ctx id p.data) start)
    (held : ctx'.captured id = mid.captured id)
    (good : Reception.captured ⟨con',ctx',seen ++ pktBytes ps,[] ++ packetsSpill headerLen id start ps⟩ id n headerLen) :
    False := by
  have mine := good.held
  dsimp only at mine
  rw [held,packets] at mine
  rcases packetsOver filled pool alloc few past small with spill | long
  · exact spill good.inside
  · rw [mine,List.length_take] at long
    omega

theorem receptionStep {s t : Reception} {chain : Chain} (R : Receiving s id n headerLen)
    (next : s.step id chain = some t) :
    (t.captured id n headerLen ↔ s.fits n headerLen chain) ∧ (t.captured id n headerLen → Receiving t id n headerLen) := by
  obtain ⟨some_,plain,dataLen,header,small,resLen,inside,phase⟩ := R
  unfold Reception.step at next
  split at next <;> try contradiction
  rename_i count
  rcases phase with ⟨state,few,filled,pool,alloc⟩ | ⟨state,whole,held⟩
  · rw [if_pos state,cacheBufCaptures plain (by rw [resLen]; exact Nat.ne_of_gt some_) count,inside,header] at next
    have size : word (s.con.dataLen + s.con.responseHeaderLen) = n + headerLen := by
      rw [dataLen,header]
      exact Nat.mod_eq_of_lt small
    have packets : bodyPackets s.con s.ctx id chain =
        chain.walk.foldl (fun ctx p => bodyCapture headerLen ctx id p.data) (bodyStart s.con s.ctx id) := by
      rw [← header]
      rfl
    have ends := endCases s.con (bodyPackets s.con s.ctx id chain) id
    obtain ⟨held,resLen'⟩ := endCaptured s.con (bodyPackets s.con s.ctx id chain) id
    rw [size] at ends
    generalize bodyEnd s.con (bodyPackets s.con s.ctx id chain) id = last at next held resLen' ends
    obtain ⟨con',ctx'⟩ := last
    have made := Option.some.inj next
    dsimp only at held resLen' ends made
    subst made
    rcases Nat.lt_or_ge (n + headerLen) (s.seen ++ pktBytes chain.walk).length with past | fits
    · refine ⟨iff_of_false (fun good => ?_) fun fits => ?_,fun good => ?_⟩
      · exact receptionOver filled pool alloc (Nat.le_of_lt few) past small packets held good
      · have fits := fits state
        rw [List.length_append] at past
        omega
      · exact (receptionOver filled pool alloc (Nat.le_of_lt few) past small packets held good).elim
    · obtain ⟨filled',pool'⟩ := packetsFilled filled pool fits small
      have none_ := packetsSpare filled pool alloc fits small
      have alloc' : ((bodyPackets s.con s.ctx id chain).urls id).urlFlags.cacheBufAlloc = true := by
        rw [packets,packetsAlloc]
        exact alloc
      rw [← packets] at filled' pool'
      have mine : (bodyPackets s.con s.ctx id chain).captured id = ((s.seen ++ pktBytes chain.walk).drop headerLen).take n := by
        rw [filledWhole filled' alloc',List.take_of_length_le]
        rw [List.length_drop]
        omega
      have good : s.fits n headerLen chain := by
        intro _
        rw [List.length_append] at fits
        exact fits
      rw [none_]
      rw [filled'.counted] at ends
      rcases ends with ⟨enough,rfl⟩ | ⟨short,same⟩
      · have done : n ≤ ((s.seen ++ pktBytes chain.walk).drop headerLen).length := (bodySize some_).mpr enough
        refine ⟨iff_of_true ⟨held.trans mine,rfl,iff_of_true rfl done⟩ good,fun _ => ?_⟩
        exact ⟨some_,plain,dataLen,header,small,resLen'.trans filled'.resLen,rfl,.inr ⟨rfl,enough,held.trans mine⟩⟩
      · cases same
        have going : ¬n ≤ ((s.seen ++ pktBytes chain.walk).drop headerLen).length := fun done =>
          Nat.not_le_of_lt short ((bodySize some_).mp done)
        have same : bodyStart s.con (bodyPackets s.con s.ctx id chain) id = bodyPackets s.con s.ctx id chain :=
          if_pos filled'.started
        refine ⟨iff_of_true ⟨mine,rfl,iff_of_false (fun done => ?_) going⟩ good,fun _ => ?_⟩
        · cases state.symm.trans done
        · refine ⟨some_,plain,dataLen,header,small,filled'.resLen,rfl,.inl ⟨state,short,?_,?_,?_⟩⟩
          · rw [same]
            exact filled'
          · rw [same]
            exact pool'
          · rw [same]
            exact alloc'
  · have off : s.con.resState ≠ .dataLine := by
      rw [state]
      exact SpState.noConfusion
    rw [if_neg off] at next
    cases Option.some.inj next
    have longer : n + headerLen ≤ (s.seen ++ pktBytes chain.walk).length := by
      rw [List.length_append]
      exact Nat.le_add_right_of_le whole
    have held' : s.ctx.captured id = ((s.seen ++ pktBytes chain.walk).drop headerLen).take n := by
      rw [List.drop_append_of_le_length (by omega),List.take_append_of_le_length ((bodySize some_).mpr whole)]
      exact held
    refine ⟨iff_of_true ⟨held',inside,iff_of_true state ((bodySize some_).mpr longer)⟩ fun on => (off on).elim,fun _ => ?_⟩
    exact ⟨some_,plain,dataLen,header,small,resLen,inside,.inr ⟨state,longer,held'⟩⟩

/-- The buffers hold the body of a response, and nothing is written beside them, exactly as long as the chain that
completes the body ends with it. -/
theorem bodyCapturedExactly {con : Con} {ctx : Ctx} {id : UrlId} {n headerLen : Nat}
    (start : Opening con ctx id n headerLen) (chains : List Chain) :
    Along (Reception.step id) (fun _ _ t => t.captured id n headerLen) ⟨con,ctx,[],[]⟩ chains ↔
      Along (Reception.step id) (fun s chain _ => s.fits n headerLen chain) ⟨con,ctx,[],[]⟩ chains :=
  alongExact (I := fun s => Receiving s id n headerLen) receptionStep (openingReceives start)

instance decidableFits (s : Reception) (n headerLen : Nat) (chain : Chain) : Decidable (s.fits n headerLen chain) :=
  inferInstanceAs (Decidable (_ → _))

def fiveBytes : Con := { forwarded with resState := .dataLine,dataLen := 5,responseHeaderLen := 4 }
def fiveCtx : Ctx := writtenCtx.modify 0 fun e => { e with urlResLen := 5 }

theorem fiveOpening : Opening fiveBytes fiveCtx 0 5 4 := by
  have pool : Pool fiveCtx 0 := by
    refine ⟨?_,writtenPool.counted⟩
    unfold fiveCtx
    rw [modifySelf]
    exact writtenPool.nodup
  have fresh : Fresh fiveCtx 0 5 := by
    constructor <;> decide
  exact ⟨fresh,pool,by decide,by decide,rfl,rfl,rfl,rfl,by decide⟩

theorem fiveCaptured : Along (Reception.step 0) (fun _ _ t => t.captured 0 5 4) ⟨fiveBytes,fiveCtx,[],[]⟩
    [efBufEfbToChain [⟨0,ascii "hea"⟩,⟨1,ascii "dab"⟩],efBufEfbToChain [⟨2,ascii "cde"⟩],efBufEfbToChain [⟨3,ascii "xy"⟩]] :=
  (bodyCapturedExactly fiveOpening _).mpr (by decide +kernel)

theorem sevenCaptured : ¬Along (Reception.step 0) (fun _ _ t => t.captured 0 5 4) ⟨fiveBytes,fiveCtx,[],[]⟩
    [efBufEfbToChain [⟨0,ascii "head"⟩,⟨1,ascii "abcdefg"⟩]] := by
  intro all
  have held := (all _ rfl).1.held
  revert held
  decide +kernel

end response

end MipsElfExec.Snooping
