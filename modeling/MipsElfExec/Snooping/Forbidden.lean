import MipsElfExec.Snooping.Effect
import MipsElfExec.Snooping.Stall

/-! Requests to a forbidden host. The rule of such a host gives an empty key, so that its requests
are answered by an entry that lies under that key, and only if the connection reads the header. -/
namespace MipsElfExec.Snooping
open CString Run

section request
variable {P : Platform} {env : ReplyEnv} {con : Con} {ctx : Ctx} {token : Nat} {arrived : List EfBuf} {id : UrlId}
  {header behind : Bytes} {head : RequestHead}

structure ForbiddenGet (header : Bytes) (head : RequestHead) : Prop where
  ends : Ends header
  known : requestHead header = some head
  get : head.method = .get
  path : head.resUrl.head? = some 47
  host : ∃ host ∈ httpCacheHostUrl,host.forbiden = true ∧ host.host = head.serverName

theorem hostPlain : ∀ host ∈ httpCacheHostUrl,(47 : Byte) ∉ host.host ∧ host.host ≠ [] := by
  decide

theorem forbiddenRule (asks : ForbiddenGet header head) :
    ngxHttpUrlRuleGet (head.serverName ++ head.resUrl) = some httpForbidenRule := by
  obtain ⟨host,mem,forbids,name⟩ := asks.host
  obtain ⟨plain,some_⟩ := hostPlain host mem
  have found := tableHostFound host mem
  rw [name] at plain some_ found
  obtain ⟨rest,path⟩ := List.head?_eq_some_iff.mp asks.path
  have front : (head.serverName ++ head.resUrl).takeWhile (· ≠ 47) = head.serverName := by
    rw [path,List.takeWhile_append_of_pos (untilAll plain)]
    simp
  have back : (head.serverName ++ head.resUrl).dropWhile (· ≠ 47) = head.resUrl := by
    rw [path,List.dropWhile_append_of_pos (untilAll plain)]
    simp
  unfold ngxHttpUrlRuleGet
  dsimp only
  rw [front,back,found,if_neg (not_or.mpr ⟨by rw [path]; exact List.cons_ne_nil _ _,some_⟩)]
  exact if_pos forbids

def RequestHead.fits (head : RequestHead) : Prop := head.serverName.length + head.resUrl.length + 1 ≤ httpSpUrlLenMax - 1

theorem forbiddenTarget (asks : ForbiddenGet header head) :
    (head.fits → recordTarget head.serverName head.resUrl = some (httpForbidenRule,[])) ∧
    (¬head.fits → recordTarget head.serverName head.resUrl = none) := by
  unfold recordTarget RequestHead.fits
  constructor
  · intro fits
    rw [if_neg (Nat.not_lt_of_le fits),forbiddenRule asks]
    dsimp only
    rw [forbidenKeyEmpty]
    rfl
  · exact fun long => if_pos (Nat.lt_of_not_le long)

def Ctx.forbids (ctx : Ctx) : Prop :=
  ∃ id,ngxHttpSnoopingUrlHashFind ctx [] = some id ∧ (ctx.urls id).cacheFlg.forbiden = true

theorem redirectOther (P : Platform) (con : Con) (e : UrlEntry) (resUrl : Bytes) :
    redirectText P con e resUrl ≠ httpClient403Str := by
  intro same
  have start := congrArg (List.take 10) same
  unfold redirectText at start
  simp only [List.append_assoc] at start
  rw [List.take_append_of_le_length (by decide)] at start
  exact absurd start (by decide)

theorem redirectReply {e : UrlEntry} {resUrl : Bytes} :
    (ngxHttpSnoopingUrlRedirect P env con ctx e resUrl).reply ≠ some httpClient403Str := by
  unfold ngxHttpSnoopingUrlRedirect
  split
  · exact nofun
  split
  · exact nofun
  split
  · exact nofun
  · exact fun same => redirectOther P con e resUrl (Option.some.inj same)

theorem recordForbids (asks : ForbiddenGet header head) (ctx : Ctx) :
    (∃ id,((ngxHttpSnoopingUrlRecord head.serverName head.resUrl).exec ctx).1 = some id ∧
      (((ngxHttpSnoopingUrlRecord head.serverName head.resUrl).exec ctx).2.urls id).cacheFlg.forbiden = true) ↔
    head.fits ∧ ctx.forbids := by
  obtain ⟨short,long⟩ := forbiddenTarget asks
  rcases Classical.em head.fits with fits | over_
  · obtain ⟨result,urls⟩ := recordUrls (short fits) ctx
    have known : recordResult ctx httpForbidenRule [] = ngxHttpSnoopingUrlHashFind ctx [] := Option.or_none
    rw [result,known,and_iff_right fits]
    refine exists_congr fun id => and_congr_right fun found => ?_
    rw [urls,if_pos (known.trans found)]
    unfold recordEntry
    rw [found]
    rfl
  · rw [recordNone (long over_)]
    exact iff_of_false (fun ⟨_,none_,_⟩ => nomatch none_) fun both => over_ both.1

theorem answerForbids (P : Platform) (resUrl : Bytes) (room : env.freeSpace ≠ 0) (efb : env.efb = true) :
    ((requestAnswer P env con ctx resUrl).reply = some httpClient403Str ↔
      ∃ id,con.conUrl = some id ∧ (ctx.urls id).cacheFlg.forbiden = true) ∧
    ((requestAnswer P env con ctx resUrl).reply = some httpClient403Str →
      (requestAnswer P env con ctx resUrl).con.requestPktChain = efBufInitChain) := by
  unfold requestAnswer
  cases url : con.conUrl with
  | none =>
    refine ⟨iff_of_false nofun ?_,nofun⟩
    rintro ⟨_,none_,_⟩
    cases none_
  | some id =>
    dsimp only
    cases forbids : (ctx.urls id).cacheFlg.forbiden with
    | true =>
      unfold ngxHttpSnoopingUrlForbidden
      rw [if_pos rfl,if_neg room,if_neg (by rw [efb]; exact Bool.noConfusion)]
      exact ⟨iff_of_true rfl ⟨id,rfl,forbids⟩,fun _ => rfl⟩
    | false =>
      rw [if_neg Bool.false_ne_true]
      have other : ¬∃ id',some id = some id' ∧ (ctx.urls id').cacheFlg.forbiden = true := by
        rintro ⟨_,same,set⟩
        cases same
        cases forbids.symm.trans set
      split
      · exact ⟨iff_of_false redirectReply other,fun same => (redirectReply same).elim⟩
      · exact ⟨iff_of_false nofun other,nofun⟩

theorem requestForbids (hz : Nat) (addrText : Nat → Bytes) (mimeOf : Bytes → Bytes) (asks : ForbiddenGet header head)
    (waits : con.opens .client = true) (room : con.begin.reqBuf.length ≤ httpSpReqHeadLenMax - 1)
    (more : strstr con.begin.reqBuf httpEnd = none) (text : con.begin.reqBuf ++ pktBytes arrived = header ++ behind)
    (positive : token ≠ 0) (free : env.freeSpace ≠ 0) (efb : env.efb = true) :
    let o := ngxHttpSnoopingRequestParse (snoopingPlatform hz addrText mimeOf) env con ctx arrived token
    o.reply = some httpClient403Str ∧ o.sent = [] ↔
      header.length ≤ httpSpReqHeadLenMax - 1 ∧ head.fits ∧ ctx.forbids := by
  have state : con.reqState = .init ∨ con.reqState = .initData := by simpa [Con.opens] using waits
  have buf : requestBuf (con.enqueue arrived) arrived = (header ++ behind).take (httpSpReqHeadLenMax - 1) := by
    rw [requestBufEnqueue,requestBuf,headerFillTake room,text]
  have some_ : arrived ≠ [] := by
    rintro rfl
    rw [show pktBytes [] = [] from rfl,List.append_nil] at text
    rw [text,strstrExtends asks.ends behind] at more
    cases more
  have live : ¬((con.enqueue arrived).requestPktChain.count = 0 ∨ token = 0) := by
    refine not_or.mpr ⟨fun none_ => some_ ?_,positive⟩
    have count : con.requestPktChain.count + arrived.length = 0 := none_
    exact List.length_eq_zero_iff.mp (Nat.eq_zero_of_add_eq_zero_left count)
  dsimp only
  rcases Nat.lt_or_ge (httpSpReqHeadLenMax - 1) header.length with long | short
  · have missing : strstr (requestBuf (con.enqueue arrived) arrived) httpEnd = none := by
      rw [buf]
      refine Option.eq_none_iff_forall_not_mem.mpr fun n found => ?_
      obtain ⟨_,inside⟩ := headerShown asks.ends (List.take_prefix (httpSpReqHeadLenMax - 1) (header ++ behind)) found
      have size := inside.length_le
      rw [List.length_take] at size
      omega
    have few : (requestBuf (con.enqueue arrived) arrived).length ≤ httpSpReqHeadLenMax - 1 := by
      rw [buf]
      exact List.length_take_le _ _
    rw [requestBegins state,if_neg live,initPart missing few]
    exact iff_of_false (fun both => nomatch both.1) fun fits => Nat.not_lt_of_le fits.1 long
  · have whole : requestBuf (con.enqueue arrived) arrived = header ++ behind.take (httpSpReqHeadLenMax - 1 - header.length) := by
      rw [buf,List.take_append,List.take_of_length_le short]
    have read : headerText (con.enqueue arrived) arrived =
        some (header ++ cstr (behind.take (httpSpReqHeadLenMax - 1 - header.length))) := by
      rw [@headerTextInit (con.enqueue arrived) arrived state,whole,strstrExtends asks.ends,cstrAppend,
        if_neg (headerNoNul asks.ends)]
      rfl
    obtain ⟨mid,path,text_,_⟩ := @parseHeader (snoopingPlatform hz addrText mimeOf) env _ ctx _ _ _ live read
    obtain ⟨known,_⟩ := headBeyond (endedEnds asks.ends) (cstr (behind.take (httpSpReqHeadLenMax - 1 - header.length)))
      asks.known
    obtain ⟨_,_,url,table⟩ := recordSame mid.headed ctx head.serverName head.resUrl
    have answer := @answerForbids env (urlRecord mid.headed ctx head.serverName head.resUrl).1
      (urlRecord mid.headed ctx head.serverName head.resUrl).2 (snoopingPlatform hz addrText mimeOf) head.resUrl free efb
    rw [url,table,recordForbids asks] at answer
    obtain ⟨replies,drops⟩ := answer
    have finish := @headerRecorded (snoopingPlatform hz addrText mimeOf) env mid ctx token
      { head with rest := head.rest ++ cstr (behind.take (httpSpReqHeadLenMax - 1 - header.length)) } (text_ ▸ known) asks.get
    rw [path,finish]
    dsimp only
    rw [table]
    generalize requestAnswer (snoopingPlatform hz addrText mimeOf) env _ _ head.resUrl = o at replies drops ⊢
    have reply : (requestDone (snoopingPlatform hz addrText mimeOf) o token).reply = o.reply := (finishSame _).2.1
    rw [reply,replies,and_iff_right short]
    refine ⟨And.left,fun forbids => ⟨forbids,?_⟩⟩
    have empty := drops (replies.mpr forbids)
    have chain : (requestDone (snoopingPlatform hz addrText mimeOf) o token).chain = efBufInitChain := by
      change (ngxHttpEfGetn o.con.requestPktChain token).1 = efBufInitChain
      rw [empty,getnAll (Nat.zero_le token)]
    unfold Outcome.sent
    rw [chain]
    rfl

end request

section visits
variable {hz : Nat} {addrText : Nat → Bytes} {mimeOf : Bytes → Bytes}

structure Visit where
  con : Con
  ctx : Ctx
  got : Option Bytes := none
  leaked : Bool := false

def Visit.came (s : Visit) (pkts : List EfBuf) : Option Nat → Option Bytes
  | some k => some ((pktBytes pkts).drop k)
  | none => s.got.map (· ++ pktBytes pkts)

def Visit.leaks (s : Visit) (begins : Option Nat) : Bool := begins.isNone && s.leaked

def Visit.step (P : Platform) (s : Visit) (e : BlockEvent × Option Nat) : Option Visit :=
  match e.1 with
  | .data .client env pkts token =>
    let o := ngxHttpSnoopingRequestParse P env s.con s.ctx pkts token
    some ⟨o.con,o.ctx,(s.came pkts e.2).filter fun text => (strstr text httpEnd).isNone,s.leaks e.2 || !o.sent.isEmpty⟩
  | .data .server _ pkts token =>
    let o := ngxHttpSnoopingResponseParse P s.con s.ctx pkts token
    some { s with con := o.con,ctx := o.ctx }
  | .shut side =>
    let last := ngxHttpSnoopingShut s.con s.ctx side
    some { s with con := last.1,ctx := last.2 }
  | .other act => some { s with ctx := act s.ctx }

def Visit.start (con : Con) (ctx : Ctx) (clientAddr localServerAddr : Nat) : Visit :=
  { con := ngxHttpSnoopingCreate con clientAddr localServerAddr,ctx := ctx }

structure Visit.asks (s : Visit) (env : ReplyEnv) (pkts : List EfBuf) (token : Nat) (begins : Option Nat) (header : Bytes)
    (head : RequestHead) : Prop where
  came : ∃ behind,s.came pkts begins = some (header ++ behind)
  forbidden : ForbiddenGet header head
  positive : token ≠ 0
  free : env.freeSpace ≠ 0
  efb : env.efb = true

def Visit.blocked (P : Platform) (s : Visit) (e : BlockEvent × Option Nat) : Prop :=
  match e.1 with
  | .data .client env pkts token => ∀ header head,s.asks env pkts token e.2 header head →
    let o := ngxHttpSnoopingRequestParse P env s.con s.ctx pkts token
    (o.reply = some httpClient403Str ∧ o.sent = []) ∧ s.leaks e.2 = false
  | _ => True

def Visit.ready (s : Visit) (e : BlockEvent × Option Nat) : Prop :=
  match e.1 with
  | .data .client _ pkts _ => ∀ text,s.came pkts e.2 = some text → s.con.opens .client = true ∧
    s.con.begin.reqBuf.length ≤ httpSpReqHeadLenMax - 1 ∧ s.con.begin.reqBuf ++ pktBytes pkts = text
  | _ => True

def Visit.admits (s : Visit) (e : BlockEvent × Option Nat) : Prop :=
  match e.1 with
  | .data .client env pkts token => ∀ header head,s.asks env pkts token e.2 header head →
    header.length ≤ httpSpReqHeadLenMax - 1 ∧ head.fits ∧ s.ctx.forbids
  | _ => True

def Visit.held (s : Visit) : Prop := ∀ text,s.got = some text → strstr text httpEnd = none ∧ s.leaked = false

theorem cameHeld {s : Visit} {pkts : List EfBuf} {begins : Option Nat} {text : Bytes} (held : s.held)
    (came : s.came pkts begins = some text) (text_ : s.con.begin.reqBuf ++ pktBytes pkts = text) :
    strstr s.con.begin.reqBuf httpEnd = none ∧ s.leaks begins = false := by
  cases begins with
  | some k =>
    cases Option.some.inj came
    have size := congrArg List.length text_
    rw [List.length_append,List.length_drop] at size
    have empty : s.con.begin.reqBuf = [] := List.length_eq_zero_iff.mp (by omega)
    rw [empty]
    exact ⟨rfl,rfl⟩
  | none =>
    obtain ⟨got,here,same⟩ := Option.map_eq_some_iff.mp came
    rw [List.append_cancel_right (text_.trans same.symm)]
    exact held got here

theorem partSent {P : Platform} {env : ReplyEnv} {con : Con} {ctx : Ctx} {pkts : List EfBuf} {token : Nat}
    (waits : con.opens .client = true) (room : con.begin.reqBuf.length ≤ httpSpReqHeadLenMax - 1)
    (more : strstr (con.begin.reqBuf ++ pktBytes pkts) httpEnd = none) :
    (ngxHttpSnoopingRequestParse P env con ctx pkts token).sent = [] := by
  have state : con.reqState = .init ∨ con.reqState = .initData := by simpa [Con.opens] using waits
  have buf : requestBuf (con.enqueue pkts) pkts = (con.begin.reqBuf ++ pktBytes pkts).take (httpSpReqHeadLenMax - 1) := by
    rw [requestBufEnqueue,requestBuf,headerFillTake room]
  have missing : strstr (requestBuf (con.enqueue pkts) pkts) httpEnd = none := by
    rw [buf]
    refine Option.eq_none_iff_forall_not_mem.mpr fun n found => ?_
    have whole := strstrExtends found ((con.begin.reqBuf ++ pktBytes pkts).drop (httpSpReqHeadLenMax - 1))
    rw [List.take_append_drop,more] at whole
    cases whole
  rw [requestBegins state]
  split
  · rfl
  · rw [initPart missing (buf ▸ List.length_take_le _ _)]
    rfl

theorem visitStep {s t : Visit} {e : BlockEvent × Option Nat} (held : s.held) (ready : s.ready e)
    (next : s.step (snoopingPlatform hz addrText mimeOf) e = some t) :
    t.held ∧ (s.blocked (snoopingPlatform hz addrText mimeOf) e ↔ s.admits e) := by
  obtain ⟨e,begins⟩ := e
  cases e with
  | data side env pkts token =>
    cases side with
    | client =>
      cases Option.some.inj next
      constructor
      · intro text kept
        obtain ⟨came,part⟩ := Option.filter_eq_some_iff.mp kept
        obtain ⟨waits,room,text_⟩ := ready text came
        obtain ⟨_,whole⟩ := cameHeld held came text_
        have more := Option.isNone_iff_eq_none.mp part
        refine ⟨more,?_⟩
        dsimp only
        rw [whole,partSent waits room (text_ ▸ more)]
        rfl
      · refine forall_congr' fun header => forall_congr' fun head => forall_congr' fun asks => ?_
        obtain ⟨⟨behind,came⟩,forbidden_,positive,free,efb⟩ := asks
        obtain ⟨waits,room,text_⟩ := ready _ came
        obtain ⟨more,whole⟩ := cameHeld held came text_
        dsimp only
        rw [and_iff_left whole]
        exact requestForbids hz addrText mimeOf forbidden_ waits room more text_ positive free efb
    | server =>
      cases Option.some.inj next
      exact ⟨held,Iff.rfl⟩
  | shut side =>
    cases Option.some.inj next
    exact ⟨held,Iff.rfl⟩
  | other act =>
    cases Option.some.inj next
    exact ⟨held,Iff.rfl⟩

/-- As long as the connection waits for each header that comes and buffers it alone, every GET to a forbidden host is
answered with the 403 and held back exactly when its header fits and an entry of the table forbids it. -/
theorem forbiddenBlockedExactly (hz : Nat) (addrText : Nat → Bytes) (mimeOf : Bytes → Bytes) (con : Con) (ctx : Ctx)
    (clientAddr localServerAddr : Nat) (events : List (BlockEvent × Option Nat)) :
    (Along (Visit.step (snoopingPlatform hz addrText mimeOf))
        (fun s e _ => s.ready e ∧ s.blocked (snoopingPlatform hz addrText mimeOf) e)
        (.start con ctx clientAddr localServerAddr) events ↔
      Along (Visit.step (snoopingPlatform hz addrText mimeOf)) (fun s e _ => s.ready e ∧ s.admits e)
        (.start con ctx clientAddr localServerAddr) events) ∧
    (Along (Visit.step (snoopingPlatform hz addrText mimeOf)) (fun s e _ => s.ready e ∧ s.admits e)
        (.start con ctx clientAddr localServerAddr) events →
      Along (Visit.step (snoopingPlatform hz addrText mimeOf))
        (fun s e _ => s.blocked (snoopingPlatform hz addrText mimeOf) e)
        (.start con ctx clientAddr localServerAddr) events) := by
  have start : (Visit.start con ctx clientAddr localServerAddr).held := nofun
  have exact_ {s t : Visit} {e : BlockEvent × Option Nat} (held : s.held)
      (next : s.step (snoopingPlatform hz addrText mimeOf) e = some t) :
      (s.ready e ∧ s.blocked (snoopingPlatform hz addrText mimeOf) e ↔ s.ready e ∧ s.admits e) ∧
      (s.ready e ∧ s.blocked (snoopingPlatform hz addrText mimeOf) e → t.held) :=
    ⟨and_congr_right fun ready => (visitStep held ready next).2,fun both => (visitStep held both.1 next).1⟩
  refine ⟨alongStepExact exact_ start,fun all => ?_⟩
  exact alongImp And.right ((alongStepExact exact_ start).mpr all)

def forbiddenGet : List EfBuf := [⟨0,ascii "GET /x HTTP/1.1" ++ crlf ++ ascii "Host: atm.youku.com" ++ httpEnd⟩]

example : (run (Visit.step testPlatform) (.start {} (ngxHttpSnoopingInit 0) 1 2)
    [(.other fun ctx => ((ngxHttpYoukuUrlAdd (ascii "atm.youku.com/x")).exec ctx).2,none)]).map (fun s =>
      (ngxHttpSnoopingRequestParse testPlatform ⟨1,true⟩ s.con s.ctx forbiddenGet 1).reply) =
    some (some httpClient403Str) := by decide

theorem forbiddenForwarded : ¬Along (Visit.step testPlatform) (fun s e _ => s.blocked testPlatform e)
    (.start {} (ngxHttpSnoopingInit 0) 1 2) [(.data .client ⟨1,true⟩ forbiddenGet 1,some 0)] := by
  intro all
  have asked : ForbiddenGet (pktBytes forbiddenGet) ⟨.get,ascii "/x",ascii "atm.youku.com",crlf⟩ :=
    ⟨by unfold Ends; decide,by decide,rfl,rfl,forbidden "atm.youku.com",by decide,rfl,rfl⟩
  have blocked := (all _ rfl).1 _ _ ⟨⟨[],by decide⟩,asked,by decide,by decide,rfl⟩
  have silent : (ngxHttpSnoopingRequestParse testPlatform ⟨1,true⟩ (ngxHttpSnoopingCreate {} 1 2) (ngxHttpSnoopingInit 0)
      forbiddenGet 1).reply = none := by decide
  cases silent.symm.trans blocked.1.1

end visits

end MipsElfExec.Snooping
