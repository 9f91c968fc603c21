import MipsElfExec.Lib.Blocks
import MipsElfExec.Lib.Run
import MipsElfExec.Snooping.Conserve
import MipsElfExec.Snooping.Page
import MipsElfExec.Snooping.Writer

/-! The body that is captured for an entry: which bytes its buffers hold while the
response is forwarded, and what a pass of the write task then publishes. -/
namespace MipsElfExec.Snooping
open CString Blocks Run

variable {con : Con} {ctx ctx' : Ctx} {id : UrlId} {n headerLen : Nat} {text : Bytes}

def Ctx.captured (ctx : Ctx) (id : UrlId) : Bytes := (ctx.urls id).dataBufList.flatMap ctx.bufs.data

section buffers

structure Pool (ctx : Ctx) (id : UrlId) : Prop where
  nodup : ((ctx.urls id).dataBufList ++ ctx.bufs.freeList).Nodup
  counted : ctx.bufs.bufNum ≤ ctx.bufs.freeList.length

theorem initPool (jiffies : Nat) (id : UrlId) : Pool (ngxHttpSnoopingInit jiffies) id := by
  constructor <;> unfold ngxHttpSnoopingInit <;> dsimp only
  · rw [List.nil_append]
    exact List.nodup_range
  · rw [List.length_range]

structure Filled (ctx : Ctx) (id : UrlId) (n headerLen : Nat) (text : Bytes) : Prop where
  started : (ctx.urls id).dataStart = true
  counted : (ctx.urls id).urlDataLen = text.length
  resLen : (ctx.urls id).urlResLen = n
  laid : (ctx.urls id).urlFlags.cacheBufAlloc = true →
    Laid httpSpBufLenMax ctx.bufs.data (ctx.urls id).dataBufList (text.drop headerLen) ∧
    (ctx.urls id).urlDataCurrent = filling httpSpBufLenMax (ctx.urls id).dataBufList (text.drop headerLen).length ∧
    n ≤ httpSpBufLenMax * (ctx.urls id).dataBufList.length

theorem bufFillLaid {ids : List Nat} {data : Nat → Bytes} (nodup : ids.Nodup)
    (laid : Laid httpSpBufLenMax data ids text) (bs : Bytes)
    (room : text.length + bs.length ≤ httpSpBufLenMax * ids.length) :
    Laid httpSpBufLenMax (bufFill ids data (filling httpSpBufLenMax ids text.length) bs).1 ids (text ++ bs) ∧
    (bufFill ids data (filling httpSpBufLenMax ids text.length) bs).2 =
      filling httpSpBufLenMax ids (text ++ bs).length := by
  induction bs generalizing data text with
  | nil =>
    rw [List.append_nil]
    cases filling httpSpBufLenMax ids text.length <;> exact ⟨laid,rfl⟩
  | cons b bs ih =>
    rw [List.length_cons] at room
    obtain ⟨k,here⟩ : ∃ k,filling httpSpBufLenMax ids text.length = some k := fillingSome (by omega)
    obtain ⟨pushed,next⟩ := laidPush (by decide) laid nodup here b
    have size : (text ++ [b]).length = text.length + 1 := List.length_append
    have rest := ih pushed (by omega)
    rw [size,← next,List.append_assoc] at rest
    rw [here]
    exact rest

theorem bodyPartDrop (text data : Bytes) (headerLen : Nat) :
    (text ++ data).drop headerLen = text.drop headerLen ++ bodyPart text.length headerLen data := by
  unfold bodyPart
  rw [List.drop_append]
  split
  · rfl
  · rename_i past
    rw [Nat.sub_eq_zero_of_le (by omega),List.drop_zero]

theorem captureFilled {data : Bytes} (F : Filled ctx id n headerLen text) (pool : Pool ctx id)
    (fits : (text ++ data).length ≤ n + headerLen) (small : n + headerLen < 2 ^ 32) :
    Filled (bodyCapture headerLen ctx id data) id n headerLen (text ++ data) ∧
    Pool (bodyCapture headerLen ctx id data) id := by
  obtain ⟨started,counted,resLen,laid⟩ := F
  have size : word ((ctx.urls id).urlDataLen + data.length) = (text ++ data).length := by
    rw [counted,← List.length_append]
    exact Nat.mod_eq_of_lt (Nat.lt_of_le_of_lt fits small)
  unfold bodyCapture
  dsimp only
  split
  · rename_i alloc
    obtain ⟨laid,current,room⟩ := laid alloc
    have nodup := (List.nodup_append.mp pool.nodup).1
    have part := bodyPartDrop text data headerLen
    have all : (text.drop headerLen).length + (bodyPart text.length headerLen data).length ≤
        httpSpBufLenMax * (ctx.urls id).dataBufList.length := by
      rw [← List.length_append,← part,List.length_drop]
      omega
    obtain ⟨laid,current'⟩ := bufFillLaid nodup laid _ all
    rw [← part,← current] at laid
    rw [← part,← current] at current'
    rw [counted]
    refine ⟨⟨?_,?_,?_,fun _ => ⟨?_,?_,?_⟩⟩,⟨?_,?_⟩⟩
    · rw [modifySelf]
      exact started
    · rw [modifySelf,← counted]
      exact size
    · rw [modifySelf]
      exact resLen
    · rw [modifySelf]
      exact laid
    · rw [modifySelf]
      exact current'
    · rw [modifySelf]
      exact room
    · rw [modifySelf]
      exact pool.nodup
    · exact pool.counted
  · rename_i off
    refine ⟨⟨?_,?_,?_,fun alloc => ?_⟩,⟨?_,pool.counted⟩⟩
    · rw [modifySelf]
      exact started
    · rw [modifySelf]
      exact size
    · rw [modifySelf]
      exact resLen
    · rw [modifySelf] at alloc
      exact (off alloc).elim
    · rw [modifySelf]
      exact pool.nodup

theorem packetsFilled {ps : List EfBuf} (F : Filled ctx id n headerLen text) (pool : Pool ctx id)
    (fits : (text ++ pktBytes ps).length ≤ n + headerLen) (small : n + headerLen < 2 ^ 32) :
    Filled (ps.foldl (fun ctx p => bodyCapture headerLen ctx id p.data) ctx) id n headerLen (text ++ pktBytes ps) ∧
    Pool (ps.foldl (fun ctx p => bodyCapture headerLen ctx id p.data) ctx) id := by
  induction ps generalizing ctx text with
  | nil =>
    rw [pktBytes,List.flatMap_nil,List.append_nil]
    exact ⟨F,pool⟩
  | cons p ps ih =>
    have more : text ++ pktBytes (p :: ps) = text ++ p.data ++ pktBytes ps := by simp [pktBytes]
    rw [more] at fits ⊢
    have one : (text ++ p.data).length ≤ n + headerLen := by
      rw [List.length_append] at fits
      omega
    obtain ⟨F,pool⟩ := captureFilled F pool one small
    exact ih F pool fits

def bufNeed (n : Nat) : Nat := (n + httpSpBufLenMax - 1) / httpSpBufLenMax

structure Fresh (ctx : Ctx) (id : UrlId) (n : Nat) : Prop where
  start : (ctx.urls id).dataStart = false
  counted : (ctx.urls id).urlDataLen = 0
  resLen : (ctx.urls id).urlResLen = n
  rule : (ctx.urls id).cacheFlg.spWrite = true
  room : (ctx.urls id).urlFlags.cacheBufAlloc = true → bufNeed n ≤ ctx.bufs.bufNum

theorem bufNeedRoom (n : Nat) : n ≤ httpSpBufLenMax * bufNeed n := by
  unfold bufNeed httpSpBufLenMax
  omega

theorem allocGets (enough : bufNeed n ≤ ctx.bufs.bufNum) :
    (ngxHttpSnoopingCacheBufAlloc ctx n id).urls id =
      { ctx.urls id with
        dataBufList := ctx.bufs.freeList.take (bufNeed n)
        urlDataCurrent := (ctx.bufs.freeList.take (bufNeed n)).head? } ∧
    (ngxHttpSnoopingCacheBufAlloc ctx n id).bufs =
      { bufNum := ctx.bufs.bufNum - bufNeed n
        freeList := ctx.bufs.freeList.drop (bufNeed n)
        data := fun k => if k ∈ ctx.bufs.freeList.take (bufNeed n) then [] else ctx.bufs.data k } := by
  unfold bufNeed at enough
  unfold ngxHttpSnoopingCacheBufAlloc bufNeed
  dsimp only
  rw [if_pos enough]
  exact ⟨modifySelf { ctx with bufs := _ } id _,rfl⟩

theorem allocLacks (few : ctx.bufs.bufNum < bufNeed n) :
    (ngxHttpSnoopingCacheBufAlloc ctx n id).urls id = { ctx.urls id with dataBufList := [] } ∧
    (ngxHttpSnoopingCacheBufAlloc ctx n id).bufs = ctx.bufs := by
  unfold bufNeed at few
  unfold ngxHttpSnoopingCacheBufAlloc
  dsimp only
  rw [if_neg (Nat.not_le_of_lt few)]
  exact ⟨modifySelf ctx id _,rfl⟩

theorem allocFilled (started : (ctx.urls id).dataStart = true) (counted : (ctx.urls id).urlDataLen = 0)
    (resLen : (ctx.urls id).urlResLen = n) (pool : Pool ctx id)
    (room : (ctx.urls id).urlFlags.cacheBufAlloc = true → bufNeed n ≤ ctx.bufs.bufNum) (headerLen : Nat) :
    Filled (ngxHttpSnoopingCacheBufAlloc ctx n id) id n headerLen [] ∧ Pool (ngxHttpSnoopingCacheBufAlloc ctx n id) id ∧
    (((ngxHttpSnoopingCacheBufAlloc ctx n id).urls id).dataBufList ≠ [] →
      Filled ((ngxHttpSnoopingCacheBufAlloc ctx n id).setFlags id ({ · with cacheBufAlloc := true })) id n headerLen []) := by
  have nodup := (List.nodup_append.mp pool.nodup).2.1
  rcases Nat.lt_or_ge ctx.bufs.bufNum (bufNeed n) with few | enough
  · obtain ⟨entry,bufs⟩ := @allocLacks ctx id n few
    refine ⟨⟨?_,?_,?_,fun alloc => ?_⟩,⟨?_,?_⟩,fun some_ => ?_⟩
    · rw [entry]
      exact started
    · rw [entry]
      exact counted
    · rw [entry]
      exact resLen
    · rw [entry] at alloc
      exact absurd (room alloc) (Nat.not_le_of_lt few)
    · rw [entry,bufs]
      exact nodup
    · rw [bufs]
      exact pool.counted
    · rw [entry] at some_
      exact (some_ rfl).elim
  · obtain ⟨entry,bufs⟩ := @allocGets ctx id n enough
    have long : (ctx.bufs.freeList.take (bufNeed n)).length = bufNeed n :=
      List.length_take_of_le (enough.trans pool.counted)
    have laid : Laid httpSpBufLenMax (fun k => if k ∈ ctx.bufs.freeList.take (bufNeed n) then [] else ctx.bufs.data k)
        (ctx.bufs.freeList.take (bufNeed n)) ([].drop headerLen) := by
      rw [List.drop_nil]
      exact laidEmpty fun k mem => if_pos mem
    have current : (ctx.bufs.freeList.take (bufNeed n)).head? =
        filling httpSpBufLenMax (ctx.bufs.freeList.take (bufNeed n)) (([] : Bytes).drop headerLen).length := by
      rw [List.drop_nil]
      exact (fillingZero (by decide) _).symm
    have fits : n ≤ httpSpBufLenMax * (ctx.bufs.freeList.take (bufNeed n)).length := by
      rw [long]
      exact bufNeedRoom n
    generalize ngxHttpSnoopingCacheBufAlloc ctx n id = last at entry bufs
    refine ⟨⟨?_,?_,?_,fun _ => ?_⟩,⟨?_,?_⟩,fun _ => ⟨?_,?_,?_,fun _ => ?_⟩⟩
    · rw [entry]
      exact started
    · rw [entry]
      exact counted
    · rw [entry]
      exact resLen
    · rw [entry,bufs]
      exact ⟨laid,current,fits⟩
    · rw [entry,bufs]
      dsimp only
      rw [List.take_append_drop]
      exact nodup
    · rw [bufs]
      dsimp only
      rw [List.length_drop]
      exact Nat.sub_le_sub_right pool.counted _
    · rw [Ctx.setFlags,modifySelf,entry]
      exact started
    · rw [Ctx.setFlags,modifySelf,entry]
      exact counted
    · rw [Ctx.setFlags,modifySelf,entry]
      exact resLen
    · rw [Ctx.setFlags,modifySelf,entry]
      change Laid httpSpBufLenMax last.bufs.data _ _ ∧ _
      rw [bufs]
      exact ⟨laid,current,fits⟩

theorem startFilled (F : Fresh ctx id n) (pool : Pool ctx id) (same : con.dataLen = n) (headerLen : Nat) :
    Filled (bodyStart con ctx id) id n headerLen [] ∧ Pool (bodyStart con ctx id) id := by
  obtain ⟨start,counted,resLen,rule,room⟩ := F
  unfold bodyStart
  rw [if_neg (by rw [start]; exact Bool.false_ne_true),same]
  dsimp only
  rw [if_pos (by rw [modifySelf]; exact rule)]
  have mid : (ctx.modify id fun e => { e with dataStart := true }).urls id = { ctx.urls id with dataStart := true } :=
    modifySelf ctx id _
  have pool' : Pool (ctx.modify id fun e => { e with dataStart := true }) id :=
    ⟨by rw [mid]; exact pool.nodup,pool.counted⟩
  obtain ⟨filled,pool'',marked⟩ := allocFilled (n := n) (by rw [mid]) (by rw [mid]; exact counted)
    (by rw [mid]; exact resLen) pool' (by rw [mid]; exact room) headerLen
  split
  · exact ⟨filled,pool''⟩
  · rename_i some_
    refine ⟨marked some_,?_,pool''.counted⟩
    rw [Ctx.setFlags,modifySelf]
    exact pool''.nodup

end buffers

section response
variable {P : Platform} {page : Page} {token : Nat} {came : Bytes} {pkts : List EfBuf}

theorem getnBytes {queue : Chain} (clean : queue.surplus = []) (counted : queue.pkts.length ≤ queue.count)
    (live : ¬(queue.count = 0 ∨ token = 0)) :
    pktBytes ((ngxHttpEfGetn queue token).1.pkts ++ (ngxHttpEfGetn queue token).1.surplus) ++
        pktBytes (ngxHttpEfGetn queue token).2.pkts = pktBytes queue.pkts ∧
    (ngxHttpEfGetn queue token).1.count ≠ 0 ∧ (ngxHttpEfGetn queue token).2.surplus = [] ∧
    (ngxHttpEfGetn queue token).2.pkts.length ≤ (ngxHttpEfGetn queue token).2.count := by
  rw [not_or] at live
  rcases Nat.lt_or_ge token queue.count with more | enough
  · rw [getnSome more]
    refine ⟨?_,live.2,clean,?_⟩
    · dsimp only
      rw [← pktBytesAppend,List.append_assoc,← List.drop_drop,List.take_append_drop,List.take_append_drop]
    · dsimp only
      rw [List.length_drop]
      omega
  · rw [getnAll enough]
    refine ⟨?_,live.1,rfl,Nat.le_refl _⟩
    rw [clean,← pktBytesAppend]
    simp [efBufInitChain]

structure Active (page : Page) (con : Con) (ctx : Ctx) (id : UrlId) (came : Bytes) : Prop where
  plain : con.transEncodingType = false
  dataLen : con.dataLen = page.body.length
  headerLen : con.responseHeaderLen = page.header.length
  resLen : (ctx.urls id).urlResLen = page.body.length
  surplus : con.responsePktChain.surplus = []
  counted : con.responsePktChain.pkts.length ≤ con.responsePktChain.count
  small : page.body.length + page.header.length < 2 ^ 32
  passed : page.body.length = 0 ∧ (ctx.urls id).urlFlags.cacheBufAlloc = false ∨
    0 < page.body.length ∧ ∃ text,came = text ++ pktBytes con.responsePktChain.pkts ∧
      Filled ctx id page.body.length page.header.length text

structure Stored (page : Page) (ctx : Ctx) (id : UrlId) : Prop where
  resLen : (ctx.urls id).urlResLen = page.body.length
  whole : (ctx.urls id).urlFlags.cacheBufAlloc = true → (ctx.urls id).urlDataLen = (ctx.urls id).urlResLen →
    (ctx.urls id).urlFlags.resWrite = false → ctx.captured id = page.body

structure Ready (page : Page) (con : Con) (ctx : Ctx) (id : UrlId) (came : Bytes) : Prop where
  plain : con.transEncodingType = false
  dataLen : con.dataLen = page.body.length
  headerLen : con.responseHeaderLen = page.header.length
  resLen : (ctx.urls id).urlResLen = page.body.length
  surplus : con.responsePktChain.surplus = []
  counted : con.responsePktChain.pkts.length ≤ con.responsePktChain.count
  small : page.body.length + page.header.length < 2 ^ 32
  pool : Pool ctx id
  passed : page.body.length = 0 ∧ (ctx.urls id).urlFlags.cacheBufAlloc = false ∨
    0 < page.body.length ∧ ∃ text,came = text ++ pktBytes con.responsePktChain.pkts ∧
      Filled (bodyStart con ctx id) id page.body.length page.header.length text ∧ Pool (bodyStart con ctx id) id

theorem readyActive (A : Active page con ctx id came) (pool : Pool ctx id) : Ready page con ctx id came := by
  obtain ⟨plain,dataLen,headerLen,resLen,surplus,counted,small,passed⟩ := A
  refine ⟨plain,dataLen,headerLen,resLen,surplus,counted,small,pool,passed.imp_right fun ⟨some_,text,came_,filled⟩ => ?_⟩
  have same : bodyStart con ctx id = ctx := if_pos filled.started
  exact ⟨some_,text,came_,by rw [same]; exact filled,by rw [same]; exact pool⟩

theorem filledWhole {text : Bytes} (F : Filled ctx id n headerLen text)
    (alloc : (ctx.urls id).urlFlags.cacheBufAlloc = true) : ctx.captured id = text.drop headerLen :=
  laidText (F.laid alloc).1

theorem cacheMark (ctx : Ctx) (id : UrlId) : (ctx.setFlags id ({ · with resCache := true })).urls id =
    (ctx.urls id).setFlags ({ · with resCache := true }) :=
  modifySelf ctx id _

theorem markStored (stored : Stored page ctx id) : Stored page (ctx.setFlags id ({ · with resCache := true })) id := by
  obtain ⟨resLen,whole⟩ := stored
  refine ⟨?_,fun alloc same write => ?_⟩
  · rw [cacheMark]
    exact resLen
  · rw [cacheMark] at alloc same write
    unfold Ctx.captured
    rw [cacheMark]
    exact whole alloc same write

theorem markPool (pool : Pool ctx id) : Pool (ctx.setFlags id ({ · with resCache := true })) id :=
  ⟨by rw [cacheMark]; exact pool.nodup,pool.counted⟩

def Con.follows (con con' : Con) : Prop := con'.reqState = con.reqState ∧ con'.conUrl = con.conUrl

def Moved (page : Page) (con : Con) (id : UrlId) (came : Bytes) (o : Outcome) : Prop :=
  con.follows o.con ∧ Pool o.ctx id ∧ (o.con.resState = .dataLine ∧ Active page o.con o.ctx id came ∨
    o.con.resState = .done ∧ Stored page o.ctx id)

theorem endStored {text : Bytes} (con : Con) (page : Page) (dataLen : con.dataLen = page.body.length)
    (header : con.responseHeaderLen = page.header.length) (small : page.body.length + page.header.length < 2 ^ 32)
    (F : Filled ctx id page.body.length page.header.length text) (part : text <+: page.text) (pool : Pool ctx id) :
    bodyEnd con ctx id = (con,ctx) ∨
    (con.follows (bodyEnd con ctx id).1 ∧ Pool (bodyEnd con ctx id).2 id ∧ (bodyEnd con ctx id).1.resState = .done ∧
      Stored page (bodyEnd con ctx id).2 id) := by
  have total := pageSize page
  have size : word (con.dataLen + con.responseHeaderLen) = page.body.length + page.header.length := by
    rw [dataLen,header]
    exact Nat.mod_eq_of_lt small
  unfold bodyEnd
  rw [size,F.counted]
  split
  · rename_i enough
    have whole : text = page.text := part.eq_of_length_le (by omega)
    refine Or.inr ⟨⟨rfl,rfl⟩,⟨?_,pool.counted⟩,rfl,⟨?_,fun alloc _ _ => ?_⟩⟩
    · rw [modifySelf]
      exact pool.nodup
    · rw [modifySelf]
      exact F.resLen
    · rw [modifySelf] at alloc
      have held : (ctx.modify id fun e => { e with urlDataLen := wordSub e.urlDataLen con.responseHeaderLen }).captured id =
          ctx.captured id := by
        unfold Ctx.captured
        rw [modifySelf]
        rfl
      rw [held,filledWhole F alloc,whole,Page.text,List.drop_left]
  · exact Or.inl rfl

theorem dataMoves (getn : P.getn = ngxHttpEfGetn) (state : con.resState = .dataLine)
    (R : Ready page con ctx id came) (live : ¬(con.responsePktChain.count = 0 ∨ token = 0)) (part : came <+: page.text) :
    Moved page con id came (responseData P con ctx id token) := by
  obtain ⟨plain,dataLen,headerLen,resLen,surplus,counted,small,pool,passed⟩ := R
  obtain ⟨bytes,chain,surplus',counted'⟩ := getnBytes surplus counted live
  unfold responseData responseForward
  rw [getn]
  generalize ngxHttpEfGetn con.responsePktChain token = split_ at bytes chain surplus' counted'
  obtain ⟨dst,src⟩ := split_
  dsimp only at bytes chain surplus' counted' ⊢
  rcases passed with ⟨none_,off⟩ | ⟨some_,text,came_,filled,ready⟩
  · have skip : ngxHttpSnoopingCacheBuf { con with responsePktChain := src } ctx id dst =
        ({ con with responsePktChain := src },ctx) := if_pos (Or.inr (Or.inl (resLen.trans none_)))
    rw [skip]
    dsimp only
    rw [if_pos state]
    exact ⟨⟨rfl,rfl⟩,pool,Or.inl ⟨state,plain,dataLen,headerLen,resLen,surplus',counted',small,Or.inl ⟨none_,off⟩⟩⟩
  · have all : came = text ++ pktBytes (dst.pkts ++ dst.surplus) ++ pktBytes src.pkts := by
      rw [came_,List.append_assoc,bytes]
    have shown : text ++ pktBytes (dst.pkts ++ dst.surplus) <+: page.text := List.IsPrefix.trans ⟨_,all.symm⟩ part
    have size : (text ++ pktBytes (dst.pkts ++ dst.surplus)).length ≤ page.body.length + page.header.length := by
      rw [← pageSize]
      exact shown.length_le
    obtain ⟨filled,pool⟩ := packetsFilled filled ready size small
    have capture : ngxHttpSnoopingCacheBuf { con with responsePktChain := src } ctx id dst =
        bodyEnd { con with responsePktChain := src } (bodyPackets con ctx id dst) id := by
      refine if_neg ?_
      rw [plain,resLen]
      simp [chain,Nat.ne_of_gt some_]
    have packets : bodyPackets con ctx id dst =
        (dst.pkts ++ dst.surplus).foldl (fun ctx p => bodyCapture page.header.length ctx id p.data) (bodyStart con ctx id) := by
      rw [← headerLen]
      rfl
    rw [← packets] at filled pool
    rw [capture]
    rcases endStored { con with responsePktChain := src } page dataLen headerLen small filled shown pool with
      same | ⟨follows,pool,done,stored⟩
    · rw [same]
      dsimp only
      rw [if_pos state]
      exact ⟨⟨rfl,rfl⟩,pool,Or.inl ⟨state,plain,dataLen,headerLen,filled.resLen,surplus',counted',small,
        Or.inr ⟨some_,_,all,filled⟩⟩⟩
    · generalize bodyEnd { con with responsePktChain := src } (bodyPackets con ctx id dst) id = last
        at follows done stored pool
      rw [if_neg (by rw [done]; exact SpState.noConfusion)]
      exact ⟨follows,markPool pool,Or.inr ⟨done,markStored stored⟩⟩

theorem acceptMoves (con : Con) (getn : P.getn = ngxHttpEfGetn) {buf : Bytes} (plain : con.transEncodingType = false)
    (dataLen : con.dataLen = page.body.length) (headerLen : con.responseHeaderLen = page.header.length)
    (resLen : (ctx.urls id).urlResLen = page.body.length) (surplus : con.responsePktChain.surplus = [])
    (counted : con.responsePktChain.pkts.length ≤ con.responsePktChain.count)
    (small : page.body.length + page.header.length < 2 ^ 32) (pool : Pool ctx id)
    (rule : (ctx.urls id).cacheFlg.spWrite = true)
    (room : (ctx.urls id).urlFlags.cacheBufAlloc = true → 0 < page.body.length ∧ bufNeed page.body.length ≤ ctx.bufs.bufNum)
    (queue : came = pktBytes con.responsePktChain.pkts) (live : ¬(con.responsePktChain.count = 0 ∨ token = 0))
    (part : came <+: page.text) :
    Moved page con id came (responseAccept P con ctx id buf token) := by
  unfold responseAccept
  dsimp only
  have entry := modifySelf ctx id fun e : UrlEntry =>
    { e with
      dataStart := false
      encodingType := responseEncoding buf
      urlDataLen := 0
      urlFlags := { e.urlFlags with resLfb := true } }
  have bufs : (ctx.modify id fun e : UrlEntry =>
    { e with
      dataStart := false
      encodingType := responseEncoding buf
      urlDataLen := 0
      urlFlags := { e.urlFlags with resLfb := true } }).bufs = ctx.bufs := rfl
  generalize ctx.modify id _ = mid at entry bufs ⊢
  have pool' : Pool mid id := ⟨by rw [entry,bufs]; exact pool.nodup,by rw [bufs]; exact pool.counted⟩
  refine dataMoves getn rfl ⟨plain,dataLen,headerLen,by rw [entry]; exact resLen,surplus,counted,small,pool',?_⟩ live part
  rcases Nat.eq_zero_or_pos page.body.length with none_ | some_
  · refine Or.inl ⟨none_,?_⟩
    rw [entry]
    exact Bool.eq_false_iff.mpr fun alloc => Nat.ne_of_gt (room alloc).1 none_
  · refine Or.inr ⟨some_,[],queue,startFilled ⟨?_,?_,?_,?_,?_⟩ pool' dataLen _⟩
    · rw [entry]
    · rw [entry]
    · rw [entry]
      exact resLen
    · rw [entry]
      exact rule
    · rw [entry,bufs]
      exact fun alloc => (room alloc).2

def Con.waits (con : Con) : Bool := con.resState == .init || con.resState == .initData

def Con.receives (con : Con) : Bool := con.conUrl.isSome && con.resState == .dataLine

def Con.accepted (con : Con) : Bool := con.resState == .dataLine || con.resState == .done

theorem waitsIdle (waits : con.waits = true) : con.receives = false ∧ con.accepted = false := by
  unfold Con.waits at waits
  unfold Con.receives Con.accepted
  cases state : con.resState with
  | init | initData => exact ⟨Bool.and_false _,rfl⟩
  | _ =>
    rw [state] at waits
    cases waits

structure Waiting (con : Con) (came : Bytes) : Prop where
  surplus : con.responsePktChain.surplus = []
  counted : con.responsePktChain.counted
  queue : pktBytes con.responsePktChain.pkts = came
  buf : con.beginResponse.resBuf = came
  partial_ : strstr came httpEnd = none
  short : came.length < httpSpResHeadLenMax - 1

structure Held (id : UrlId) (con : Con) (came : Bytes) : Prop where
  url : con.conUrl = none ∨ con.conUrl = some id
  valid : con.reqState ≠ .requestHeaderError
  settled : con.resState ≠ .requestHeader
  waiting : con.conUrl = some id → con.waits = true → Waiting con came

def headerEnds (con : Con) (pkts : List EfBuf) : Bool := (strstr (responseBuf con pkts) httpEnd).isSome

theorem mimeMarked (P : Platform) (con : Con) (ctx : Ctx) (id : UrlId) (type : Bytes) : ∃ mime,
    (if con.postFix then ctx.modify id fun e => { e with mimePostfix := P.mimeOf type } else ctx).urls id =
      { ctx.urls id with mimePostfix := mime } ∧
    (if con.postFix then ctx.modify id fun e => { e with mimePostfix := P.mimeOf type } else ctx).bufs = ctx.bufs := by
  split
  · exact ⟨_,modifySelf ctx id _,rfl⟩
  · exact ⟨(ctx.urls id).mimePostfix,rfl,rfl⟩

theorem headerMoves (con : Con) (token : Nat) (getn : P.getn = ngxHttpEfGetn) (shown : page.header <+: con.resBuf)
    (chunked : strstr con.resBuf httpTransEncodingTypeChunked = none) (headerLen : con.responseHeaderLen = page.header.length)
    (surplus : con.responsePktChain.surplus = []) (counted : con.responsePktChain.pkts.length ≤ con.responsePktChain.count)
    (short : page.header.length < httpSpResHeadLenMax) (pool : Pool ctx id)
    (rule : (ctx.urls id).cacheFlg.spWrite = true)
    (room : (ctx.urls id).urlFlags.cacheBufAlloc = true → 0 < page.body.length ∧ bufNeed page.body.length ≤ ctx.bufs.bufNum)
    (queue : came = pktBytes con.responsePktChain.pkts) (live : ¬(con.responsePktChain.count = 0 ∨ token = 0))
    (part : came <+: page.text) :
    responseHeader P con ctx id token = responseError P con ctx token ∨
      Moved page con id came (responseHeader P con ctx id token) := by
  have small : page.body.length + page.header.length < 2 ^ 32 := by
    have body := contentLenSmall page.length
    unfold httpSpResHeadLenMax at short
    omega
  unfold responseHeader
  dsimp only
  split
  · exact Or.inl rfl
  · split
    · exact Or.inl rfl
    · rename_i type _
      rw [strstrCstr,chunked,pageContentLen shown]
      rw [if_neg (by exact Bool.false_ne_true)]
      dsimp only
      obtain ⟨mime,entry,bufs⟩ := mimeMarked P con ctx id type
      generalize (if con.postFix then ctx.modify id fun e => { e with mimePostfix := P.mimeOf type } else ctx) = mid
        at entry bufs ⊢
      refine Or.inr (acceptMoves { con with transEncodingType := false,dataLen := page.body.length } getn rfl rfl
        headerLen (by rw [modifySelf]) surplus counted small ⟨?_,?_⟩ ?_ ?_ queue live part)
      · rw [modifySelf,entry]
        change (_ ++ mid.bufs.freeList).Nodup
        rw [bufs]
        exact pool.nodup
      · change mid.bufs.bufNum ≤ mid.bufs.freeList.length
        rw [bufs]
        exact pool.counted
      · rw [modifySelf,entry]
        exact rule
      · rw [modifySelf,entry]
        change _ → 0 < page.body.length ∧ bufNeed page.body.length ≤ mid.bufs.bufNum
        rw [bufs]
        exact room

def Begins (id : UrlId) (con : Con) (pkts : List EfBuf) : Prop :=
  con.conUrl = some id ∧ con.waits = true ∧ headerEnds con pkts = true

inductive Heard (page : Page) (id : UrlId) (con : Con) (ctx : Ctx) (pkts : List EfBuf) (came : Bytes) (o : Outcome) :
    Prop where
  | quiet (before : con.receives = false) (after : o.con.receives = false) (same : o.con.accepted = con.accepted)
    (table : o.ctx = ctx ∨ o.ctx = ctx.setFlags id ({ · with resCache := true }))
  | active (began : con.receives = true ∨ Begins id con pkts) (after : o.con.receives = true)
    (active : Active page o.con o.ctx id came)
  | stored (began : con.receives = true ∨ Begins id con pkts) (after : o.con.receives = false)
    (accepted : o.con.accepted = true) (stored : Stored page o.ctx id)

theorem movedHeard {o : Outcome} (url : con.conUrl = some id) (valid : con.reqState ≠ .requestHeaderError)
    (moved : Moved page con id came o) :
    Held id o.con came ∧ Pool o.ctx id ∧ o.con.conUrl = some id ∧
      (o.con.receives = true ∧ Active page o.con o.ctx id came ∨
        o.con.receives = false ∧ o.con.accepted = true ∧ Stored page o.ctx id) := by
  obtain ⟨⟨req,url'⟩,pool,moved⟩ := moved
  replace url' := url'.trans url
  have valid' : o.con.reqState ≠ .requestHeaderError := req ▸ valid
  rcases moved with ⟨state,active⟩ | ⟨state,stored⟩
  · refine ⟨⟨Or.inr url',valid',by rw [state]; exact SpState.noConfusion,fun _ waits => ?_⟩,pool,url',Or.inl ⟨?_,active⟩⟩
    · unfold Con.waits at waits
      rw [state] at waits
      cases waits
    · unfold Con.receives
      rw [url',state]
      rfl
  · refine ⟨⟨Or.inr url',valid',by rw [state]; exact SpState.noConfusion,fun _ waits => ?_⟩,pool,url',
      Or.inr ⟨?_,?_,stored⟩⟩
    · unfold Con.waits at waits
      rw [state] at waits
      cases waits
    · unfold Con.receives
      rw [url',state]
      rfl
    · unfold Con.accepted
      rw [state]
      rfl

theorem quietHeld {o : Outcome} {state : SpState} (url : o.con.conUrl = none ∨ o.con.conUrl = some id)
    (valid : o.con.reqState ≠ .requestHeaderError) (same : o.con.resState = state) (surplus : state ≠ .requestHeader)
    (late : state ≠ .init ∧ state ≠ .initData) : Held id o.con came := by
  refine ⟨url,valid,by rw [same]; exact surplus,fun _ waits => ?_⟩
  unfold Con.waits at waits
  rw [same] at waits
  cases state <;> first | exact (late.1 rfl).elim | exact (late.2 rfl).elim | cases waits

theorem initHeard (getn : P.getn = ngxHttpEfGetn) (url : con.conUrl = some id) (waits : con.waits = true)
    (valid : con.reqState ≠ .requestHeaderError) (surplus : con.responsePktChain.surplus = [])
    (counted : con.responsePktChain.counted) (buf : con.beginResponse.resBuf = came)
    (short : came.length < httpSpResHeadLenMax - 1) (pool : Pool ctx id)
    (rule : (ctx.urls id).cacheFlg.spWrite = true)
    (queue : pktBytes con.responsePktChain.pkts = came ++ pktBytes pkts) (live : ¬(con.responsePktChain.count = 0 ∨ token = 0))
    (part : came ++ pktBytes pkts <+: page.text)
    (clear : headerEnds con pkts = true → strstr (responseBuf con pkts) httpTransEncodingTypeChunked = none ∧
      ((ctx.urls id).urlFlags.cacheBufAlloc = true → 0 < page.body.length ∧ bufNeed page.body.length ≤ ctx.bufs.bufNum)) :
    let o := responseInit P con ctx id pkts token
    Held id o.con (came ++ pktBytes pkts) ∧ Pool o.ctx id ∧ o.con.conUrl = some id ∧
      Heard page id con ctx pkts (came ++ pktBytes pkts) o := by
  have text : responseBuf con pkts = (came ++ pktBytes pkts).take (httpSpResHeadLenMax - 1) := by
    unfold responseBuf
    rw [buf]
    exact headerFillTake (Nat.le_of_lt short) pkts
  have begin_ := beginResponseSame con
  obtain ⟨idle,none_⟩ := waitsIdle waits
  have valid' : con.beginResponse.reqState ≠ .requestHeaderError := by
    unfold Con.beginResponse
    split
    · exact SpState.noConfusion
    · exact valid
  have failed (c : Con) (mine : c.conUrl = some id) (fine : c.reqState ≠ .requestHeaderError) :
      Held id (responseError P c ctx token).con (came ++ pktBytes pkts) ∧ Pool (responseError P c ctx token).ctx id ∧
      (responseError P c ctx token).con.conUrl = some id ∧
      Heard page id con ctx pkts (came ++ pktBytes pkts) (responseError P c ctx token) := by
    refine ⟨quietHeld (Or.inr mine) fine rfl SpState.noConfusion ⟨SpState.noConfusion,SpState.noConfusion⟩,pool,mine,
      .quiet idle ?_ ?_ (Or.inl rfl)⟩
    · unfold Con.receives
      exact Bool.and_false _
    · exact none_.symm
  have url' : con.beginResponse.conUrl = some id := begin_.2.2.1.trans url
  have fill : headerFill (httpSpResHeadLenMax - 1) con.beginResponse.resBuf pkts = responseBuf con pkts := rfl
  unfold responseInit
  dsimp only
  rw [fill]
  split
  · rename_i none_'
    split
    · exact failed _ url' valid'
    · rename_i few
      have whole : responseBuf con pkts = came ++ pktBytes pkts := by
        rw [text,List.length_take] at few
        rw [text,List.take_of_length_le (by omega)]
      refine ⟨⟨Or.inr url',valid',SpState.noConfusion,fun _ _ => ⟨?_,?_,?_,whole,?_,?_⟩⟩,pool,url',
        .quiet idle (Bool.and_false _) none_.symm (Or.inl rfl)⟩
      · exact begin_.1 ▸ surplus
      · exact begin_.1 ▸ counted
      · exact begin_.1 ▸ queue
      · exact whole ▸ none_'
      · exact whole ▸ Nat.lt_of_not_le few
  · rename_i n found
    have ends : headerEnds con pkts = true := by
      unfold headerEnds
      rw [found]
      rfl
    have began : Begins id con pkts := ⟨url,waits,ends⟩
    have shown : responseBuf con pkts <+: page.text := by
      rw [text]
      exact (List.take_prefix _ _).trans part
    obtain ⟨headerLen,header⟩ := pageShown shown found
    obtain ⟨chunked,room⟩ := clear ends
    have fits : page.header.length < httpSpResHeadLenMax := by
      have le := header.length_le
      rw [text,List.length_take] at le
      unfold httpSpResHeadLenMax at *
      omega
    have one := headerMoves
      { con.beginResponse with
        resBuf := responseBuf con pkts
        resState := .requestHeader
        responseHeaderLen := n + httpEnd.length } token
      getn header chunked headerLen (begin_.1 ▸ surplus) (begin_.1 ▸ Nat.le_of_eq counted.symm) fits pool rule room
      (begin_.1 ▸ queue.symm) (begin_.1 ▸ live) part
    rcases one with same | moved
    · rw [same]
      exact failed _ url' valid'
    · obtain ⟨held,pool,url,moved⟩ := movedHeard url' valid' moved
      refine ⟨held,pool,url,?_⟩
      rcases moved with ⟨on,active⟩ | ⟨off,accepted,stored⟩
      · exact .active (Or.inr began) on active
      · exact .stored (Or.inr began) off accepted stored

theorem otherHeard {o : Outcome} (url : con.conUrl = some id) (valid : con.reqState ≠ .requestHeaderError)
    (surplus : con.resState ≠ .requestHeader) (late : con.waits = false) (off : con.receives = false) (pool : Pool ctx id)
    (same : o.con.resState = con.resState ∧ o.con.reqState = con.reqState ∧ o.con.conUrl = con.conUrl)
    (table : o.ctx = ctx ∨ o.ctx = ctx.setFlags id ({ · with resCache := true })) :
    Held id o.con came ∧ Pool o.ctx id ∧ o.con.conUrl = some id ∧ Heard page id con ctx pkts came o := by
  obtain ⟨state,req,url'⟩ := same
  refine ⟨⟨Or.inr (url'.trans url),req ▸ valid,state ▸ surplus,fun _ waits => ?_⟩,?_,url'.trans url,.quiet off ?_ ?_ table⟩
  · unfold Con.waits at waits late
    rw [state,late] at waits
    cases waits
  · rcases table with same | marked
    · exact same ▸ pool
    · exact marked ▸ markPool pool
  · unfold Con.receives at *
    rw [state,url',off]
  · unfold Con.accepted
    rw [state]

theorem statesHeard (page : Page) (came : Bytes) (token : Nat) (getn : P.getn = ngxHttpEfGetn) (url : con.conUrl = some id) (valid : con.reqState ≠ .requestHeaderError)
    (settled : con.resState ≠ .requestHeader)
    (waiting : con.waits = true → con.responsePktChain.surplus = [] ∧ con.responsePktChain.counted ∧
      con.beginResponse.resBuf = came ∧ came.length < httpSpResHeadLenMax - 1 ∧
      pktBytes con.responsePktChain.pkts = came ++ pktBytes pkts)
    (A : con.receives = true → Active page con ctx id (came ++ pktBytes pkts)) (pool : Pool ctx id)
    (rule : (ctx.urls id).cacheFlg.spWrite = true) (live : ¬(con.responsePktChain.count = 0 ∨ token = 0))
    (part : came ++ pktBytes pkts <+: page.text)
    (clear : Begins id con pkts → strstr (responseBuf con pkts) httpTransEncodingTypeChunked = none ∧
      ((ctx.urls id).urlFlags.cacheBufAlloc = true → 0 < page.body.length ∧ bufNeed page.body.length ≤ ctx.bufs.bufNum)) :
    let o := responseStates P con ctx id pkts token
    Held id o.con (came ++ pktBytes pkts) ∧ Pool o.ctx id ∧ o.con.conUrl = some id ∧
      Heard page id con ctx pkts (came ++ pktBytes pkts) o := by
  have starts (waits : con.waits = true) :
      let o := responseInit P con ctx id pkts token
      Held id o.con (came ++ pktBytes pkts) ∧ Pool o.ctx id ∧ o.con.conUrl = some id ∧
        Heard page id con ctx pkts (came ++ pktBytes pkts) o := by
    obtain ⟨surplus,counted,buf,short,queue⟩ := waiting waits
    exact initHeard getn url waits valid surplus counted buf short pool rule queue live part fun ends => clear ⟨url,waits,ends⟩
  unfold responseStates
  cases state : con.resState with
  | init => exact starts (by unfold Con.waits; rw [state]; rfl)
  | initData => exact starts (by unfold Con.waits; rw [state]; rfl)
  | requestHeader => exact (settled state).elim
  | dataLine =>
    have on : con.receives = true := by
      unfold Con.receives
      rw [url,state]
      rfl
    obtain ⟨held,pool,url,moved⟩ := movedHeard url valid (dataMoves getn state (readyActive (A on) pool) live part)
    refine ⟨held,pool,url,?_⟩
    rcases moved with ⟨on',active⟩ | ⟨off,accepted,stored⟩
    · exact .active (Or.inl on) on' active
    · exact .stored (Or.inl on) off accepted stored
  | done =>
    refine otherHeard url valid settled ?_ ?_ pool ⟨rfl,rfl,rfl⟩ (Or.inr rfl)
    · unfold Con.waits
      rw [state]
      rfl
    · unfold Con.receives
      rw [state]
      exact Bool.and_false _
  | requestHeaderError | requestHeaderData | dataLineData | headerError | dataError =>
    refine otherHeard url valid settled ?_ ?_ pool ⟨?_,rfl,rfl⟩ (Or.inl rfl)
    · unfold Con.waits
      rw [state]
      rfl
    · unfold Con.receives
      rw [state]
      exact Bool.and_false _
    · first | exact state.symm | rfl

theorem enqueueBuf (con : Con) (pkts : List EfBuf) :
    (con.enqueueResponse pkts).beginResponse.resBuf = con.beginResponse.resBuf := by
  have same : (con.enqueueResponse pkts).resState = con.resState := rfl
  unfold Con.beginResponse
  rw [same]
  split <;> rfl

theorem enqueueResponseBuf (con : Con) (pkts : List EfBuf) :
    responseBuf (con.enqueueResponse pkts) pkts = responseBuf con pkts := by
  unfold responseBuf
  rw [enqueueBuf]

theorem enqueueActive (A : Active page con ctx id came) (pkts : List EfBuf) :
    Active page (con.enqueueResponse pkts) ctx id (came ++ pktBytes pkts) := by
  obtain ⟨plain,dataLen,headerLen,resLen,surplus,counted,small,passed⟩ := A
  refine ⟨plain,dataLen,headerLen,resLen,rfl,?_,small,passed.imp_right fun ⟨some_,text,came_,filled⟩ => ?_⟩
  · change (con.responsePktChain.pkts ++ pkts).length ≤ con.responsePktChain.count + pkts.length
    rw [List.length_append]
    exact Nat.add_le_add_right counted _
  · refine ⟨some_,text,?_,filled⟩
    change _ = text ++ pktBytes (con.responsePktChain.pkts ++ pkts)
    rw [came_,pktBytesAppend,List.append_assoc]

theorem enqueueCounted {queue : Chain} (counted : queue.counted) (pkts : List EfBuf) :
    (efBufChain2chain queue (efBufEfbToChain pkts)).counted := by
  unfold Chain.counted efBufChain2chain efBufEfbToChain at *
  dsimp only
  rw [counted,List.length_append]

theorem heardDiscard {o : Outcome} (begins : Begins id (con.enqueueResponse pkts) pkts → Begins id con pkts)
    (heard : Heard page id (con.enqueueResponse pkts) ctx pkts came o) :
    Heard page id con ctx pkts came (responseDiscard o id) := by
  obtain ⟨same,table_,_⟩ := discardSame o id
  cases heard with
  | quiet before after accepted table => exact .quiet before (same ▸ after) (same ▸ accepted) (table_ ▸ table)
  | active began after active => exact .active (began.imp_right begins) (same ▸ after) (by rw [same,table_]; exact active)
  | stored began after accepted stored =>
    exact .stored (began.imp_right begins) (same ▸ after) (same ▸ accepted) (table_ ▸ stored)

theorem responseHeard (getn : P.getn = ngxHttpEfGetn) (H : Held id con came)
    (A : con.receives = true → Active page con ctx id came) (pool : Pool ctx id)
    (rule : (ctx.urls id).cacheFlg.spWrite = true) (part : came ++ pktBytes pkts <+: page.text)
    (awake : con.conUrl = some id → con.waits = true → token ≠ 0 ∨ pkts = [])
    (clear : Begins id con pkts → strstr (responseBuf con pkts) httpTransEncodingTypeChunked = none ∧
      ((ctx.urls id).urlFlags.cacheBufAlloc = true → 0 < page.body.length ∧ bufNeed page.body.length ≤ ctx.bufs.bufNum)) :
    let o := ngxHttpSnoopingResponseParse P con ctx pkts token
    Held id o.con (came ++ pktBytes pkts) ∧ Pool o.ctx id ∧ o.con.conUrl = con.conUrl ∧
      Heard page id con ctx pkts (came ++ pktBytes pkts) o := by
  obtain ⟨url,valid,settled,waiting⟩ := H
  unfold ngxHttpSnoopingResponseParse
  dsimp only
  split
  · rename_i idle
    have none_ (mine : con.conUrl = some id) (waits : con.waits = true) : pkts = [] := by
      rcases idle with empty | zero
      · have empty' : con.responsePktChain.count + pkts.length = 0 := empty
        exact List.length_eq_zero_iff.mp (Nat.eq_zero_of_add_eq_zero_left empty')
      · exact (awake mine waits).resolve_left fun some_ => some_ zero
    refine ⟨⟨url,valid,settled,fun mine waits => ?_⟩,pool,rfl,?_⟩
    · obtain ⟨surplus,counted,queue,buf,partial_,short⟩ := waiting mine waits
      cases none_ mine waits
      rw [show pktBytes [] = [] from rfl,List.append_nil]
      refine ⟨rfl,enqueueCounted counted [],?_,(enqueueBuf con []).trans buf,partial_,short⟩
      change pktBytes (con.responsePktChain.pkts ++ []) = came
      rw [List.append_nil,queue]
    · cases on : con.receives with
      | true => exact .active (Or.inl on) on (enqueueActive (A on) pkts)
      | false => exact .quiet on on rfl (Or.inl rfl)
  · rename_i live
    rcases url with none_ | mine
    · have none_' : (con.enqueueResponse pkts).conUrl = none := none_
      rw [none_']
      dsimp only
      have off (state : SpState) : ((none : Option UrlId).isSome && state == .dataLine) = false := Bool.false_and _
      refine ⟨⟨Or.inl none_,SpState.noConfusion,settled,fun mine => ?_⟩,pool,rfl,.quiet ?_ ?_ rfl (Or.inl rfl)⟩
      · cases none_.symm.trans mine
      · unfold Con.receives
        rw [none_]
        exact off _
      · change (con.conUrl.isSome && con.resState == .dataLine) = false
        rw [none_]
        exact off _
    · have mine' : (con.enqueueResponse pkts).conUrl = some id := mine
      rw [mine']
      dsimp only
      rw [if_neg (show (con.enqueueResponse pkts).reqState ≠ .requestHeaderError from valid)]
      have begins (begins : Begins id (con.enqueueResponse pkts) pkts) : Begins id con pkts := by
        obtain ⟨_,waits,ends⟩ := begins
        unfold headerEnds at ends
        rw [enqueueResponseBuf] at ends
        exact ⟨mine,waits,ends⟩
      have clear' (due : Begins id (con.enqueueResponse pkts) pkts) := clear (begins due)
      rw [← enqueueResponseBuf] at clear'
      obtain ⟨held,pool,url,heard⟩ := statesHeard page came token getn mine' valid settled (by
        intro waits
        obtain ⟨surplus,counted,queue,buf,_,short⟩ := waiting mine waits
        refine ⟨rfl,enqueueCounted counted pkts,(enqueueBuf con pkts).trans buf,short,?_⟩
        change pktBytes (con.responsePktChain.pkts ++ pkts) = _
        rw [pktBytesAppend,queue]) (fun on => enqueueActive (A on) pkts) pool rule live part clear'
      refine ⟨?_,?_,?_,heardDiscard begins heard⟩
      · rw [(discardSame _ id).1]
        exact held
      · rw [(discardSame _ id).2.1]
        exact pool
      · rw [(discardSame _ id).1,url,mine]

end response

end MipsElfExec.Snooping
