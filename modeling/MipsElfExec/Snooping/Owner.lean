import MipsElfExec.Snooping.Leftover
import MipsElfExec.Snooping.Publish

/-! Whose entry a connection follows: every event of a connection, beside the entry that
its latest complete request was recorded for. -/
namespace MipsElfExec.Snooping
open CString Run

section events
variable {P : Platform} {env : ReplyEnv} {con : Con} {ctx : Ctx} {token : Nat} {arrived : List EfBuf}

inductive Filed (con : Con) (a : Arrival) (o : Outcome) : Prop where
  | waits (none_ : con.reads a .client = none) (url : o.con.conUrl = con.conUrl ∨ o.con.conUrl = none)
    (table : o.ctx = a.ctx)
  | bad {text} (read : con.reads a .client = some text) (bad : requestHead text = none) (url : o.con.conUrl = none)
    (table : o.ctx = a.ctx)
  | bodied {text head} (read : con.reads a .client = some text) (known : requestHead text = some head)
    (other : head.method ≠ .get)
    (url : o.con.conUrl = if requestLength head.rest = .bad then none else con.conUrl) (table : o.ctx = a.ctx)
  | recorded {text head} (hash : Nat → Nat) (read : con.reads a .client = some text)
    (known : requestHead text = some head) (get : head.method = .get)
    (url : o.con.conUrl = ((ngxHttpSnoopingUrlRecord head.serverName head.resUrl).exec a.ctx).1)
    (table : o.ctx = { ((ngxHttpSnoopingUrlRecord head.serverName head.resUrl).exec a.ctx).2 with homepageHash := hash })

theorem headerFiled {mid : Con} {a : Arrival} (P : Platform) (read : con.reads a .client = some (cstr mid.reqBuf))
    (url : mid.conUrl = con.conUrl) : Filed con a (requestHeader P a.env mid a.ctx a.token) := by
  cases known : requestHead (cstr mid.reqBuf) with
  | none =>
    rw [headerBad known]
    exact .bad read known (finishSame _).2.2.2.2.2 (finishSame _).1
  | some head =>
    by_cases get : head.method = .get
    · rw [headerRecorded known get]
      obtain ⟨_,_,filed,table⟩ := recordSame mid.headed a.ctx head.serverName head.resUrl
      have answered := answerCases P a.env (urlRecord mid.headed a.ctx head.serverName head.resUrl).1
        (urlRecord mid.headed a.ctx head.serverName head.resUrl).2 head.resUrl
      generalize requestAnswer P a.env _ _ head.resUrl = o at answered ⊢
      obtain ⟨same,_,_,_,_,owner⟩ := @finishSame P a.token { o with con := { o.con with reqState := .done } }
      cases answered with
      | passed => exact .recorded _ read known get (owner.trans filed) (same.trans table)
      | dropped hash reply =>
        refine .recorded hash read known get (owner.trans filed) (same.trans ?_)
        rw [← table]
        rfl
    · rw [headerBodied known get]
      refine .bodied read known get ((finishSame _).2.2.2.2.2.trans ?_) (finishSame _).1
      unfold Con.bodied
      cases requestLength head.rest <;> first | rfl | exact url

theorem requestFiled (P : Platform) (con : Con) (a : Arrival) :
    Filed con a (ngxHttpSnoopingRequestParse P a.env con a.ctx a.pkts a.token) := by
  obtain ⟨_,_,url⟩ := beginSame (con.enqueue a.pkts)
  have requested := requestCases P a.env con a.ctx a.pkts a.token
  by_cases idle : (con.enqueue a.pkts).requestPktChain.count = 0 ∨ a.token = 0
  · have same : ngxHttpSnoopingRequestParse P a.env con a.ctx a.pkts a.token =
        { con := con.enqueue a.pkts,ctx := a.ctx } := if_pos idle
    rw [same]
    exact .waits (if_pos idle) (Or.inl rfl) rfl
  have reads : con.reads a .client = headerText (con.enqueue a.pkts) a.pkts := if_neg idle
  have settles {mid : Con} (more : headerText (con.enqueue a.pkts) a.pkts = none) (kept : mid.conUrl = con.conUrl) :
      Filed con a (requestFinish P { con := mid,ctx := a.ctx } a.token) := by
    obtain ⟨table,_,_,_,_,owner⟩ := @finishSame P a.token { con := mid,ctx := a.ctx }
    refine .waits (reads.trans more) ?_ table
    rw [owner]
    split
    · exact Or.inr rfl
    · exact Or.inl kept
  generalize ngxHttpSnoopingRequestParse P a.env con a.ctx a.pkts a.token = o at requested
  cases requested with
  | wait now => exact (idle now).elim
  | part starts partial_ short =>
    exact .waits (reads.trans ((headerTextInit starts).trans (by rw [partial_]; rfl))) (Or.inl url) rfl
  | long starts partial_ long => exact settles ((headerTextInit starts).trans (by rw [partial_]; rfl)) url
  | head starts whole =>
    exact headerFiled P (reads.trans ((headerTextInit starts).trans (by rw [whole]; rfl))) url
  | again state =>
    refine headerFiled P (reads.trans ?_) rfl
    unfold headerText
    rw [state]
  | final settled =>
    refine settles ?_ rfl
    unfold headerText
    cases state : (con.enqueue a.pkts).reqState <;> rw [state] at settled <;> first | rfl | cases settled
  | dead state unsettled =>
    refine .waits (reads.trans ?_) (Or.inl rfl) rfl
    obtain ⟨init,initData,header⟩ := state
    unfold headerText
    cases now : (con.enqueue a.pkts).reqState <;> first | rfl | contradiction

theorem responseFiled (P : Platform) (con : Con) (ctx : Ctx) (arrived : List EfBuf) (token : Nat) :
    (ngxHttpSnoopingResponseParse P con ctx arrived token).con.conUrl = con.conUrl ∧
    ∀ j,con.conUrl ≠ some j → (ngxHttpSnoopingResponseParse P con ctx arrived token).ctx.urls j = ctx.urls j := by
  have replied := responseCases P con ctx arrived token
  generalize ngxHttpSnoopingResponseParse P con ctx arrived token = o at replied ⊢
  cases replied with
  | wait => exact ⟨rfl,fun _ _ => rfl⟩
  | plain => exact ⟨rfl,fun _ _ => rfl⟩
  | @page id o owner valid responded =>
    rw [(discardSame o id).1,(discardSame o id).2.1]
    refine ⟨responded.keeps.2.1,fun j other => responded.only.others j fun same => other ?_⟩
    rw [same]
    exact owner

theorem shutFiled (con : Con) (ctx : Ctx) (side : Side) :
    ((ngxHttpSnoopingShut con ctx side).1.conUrl = con.conUrl ∨ (ngxHttpSnoopingShut con ctx side).1.conUrl = none) ∧
    ∀ j,con.conUrl ≠ some j → (ngxHttpSnoopingShut con ctx side).2.urls j = ctx.urls j := by
  cases frees : con.frees side with
  | false =>
    obtain ⟨table,same⟩ := @shutSame ctx con side frees
    rw [table]
    refine ⟨Or.inl ?_,fun _ _ => rfl⟩
    rcases same with same | same
    · rw [same]
    · rw [same]
      cases side <;> rfl
  | true =>
    obtain ⟨free,_,_,table⟩ := @shutFrees ctx con side frees
    refine ⟨Or.inr free,fun j other => ?_⟩
    rw [table]
    cases owner : con.conUrl with
    | none => rfl
    | some id => exact modifyOther ctx _ fun same => other (same ▸ owner)

end events

section exchanges
variable {P : Platform}

def filing (ctx : Ctx) (text : Bytes) : Option UrlId :=
  match requestHead text with
  | some head => if head.method = .get then ((ngxHttpSnoopingUrlRecord head.serverName head.resUrl).exec ctx).1 else none
  | none => none

structure Exchange where
  con : Con
  ctx : Ctx
  own : Option UrlId := none

def Exchange.step (P : Platform) (s : Exchange) : BlockEvent → Option Exchange
  | .data side env pkts token =>
    let o := ngxHttpSnoopingData P env s.con s.ctx side pkts token
    let read := match side with
      | .client => s.con.reads ⟨env,s.ctx,pkts,token⟩ .client
      | .server => none
    some ⟨o.con,o.ctx,match read with | some text => filing s.ctx text | none => s.own⟩
  | .shut side =>
    let (con,ctx) := ngxHttpSnoopingShut s.con s.ctx side
    some ⟨con,ctx,s.own⟩
  | .other act => some { s with ctx := act s.ctx }

def Exchange.owned (s : Exchange) : Prop := s.con.conUrl = none ∨ s.con.conUrl = s.own

def Exchange.clears (s : Exchange) : BlockEvent → Prop
  | .data .client env pkts token => ∀ text head,s.con.reads ⟨env,s.ctx,pkts,token⟩ .client = some text →
    requestHead text = some head → head.method ≠ .get → requestLength head.rest ≠ .bad → s.con.conUrl = none
  | _ => True

def Exchange.writesOwn (s : Exchange) (e : BlockEvent) (t : Exchange) : Prop :=
  match e with
  | .data .server _ _ _ | .shut _ => ∀ j,s.own ≠ some j → t.ctx.urls j = s.ctx.urls j
  | _ => True

theorem exchangeOwned {s t : Exchange} {e : BlockEvent} (owned : s.owned) (next : s.step P e = some t) :
    (t.owned ↔ s.clears e) ∧ s.writesOwn e t := by
  have apart {j : UrlId} (other : s.own ≠ some j) : s.con.conUrl ≠ some j := by
    intro same
    rcases owned with none_ | mine
    · cases none_.symm.trans same
    · exact other (mine.symm.trans same)
  cases e with
  | data side env pkts token =>
    cases Option.some.inj next
    cases side with
    | client =>
      refine ⟨?_,trivial⟩
      have filed := requestFiled P s.con ⟨env,s.ctx,pkts,token⟩
      unfold Exchange.clears Exchange.owned ngxHttpSnoopingData
      dsimp only at filed ⊢
      generalize ngxHttpSnoopingRequestParse P env s.con s.ctx pkts token = o at filed ⊢
      cases filed with
      | waits none_ url table =>
        rw [none_]
        refine iff_of_true ?_ nofun
        rcases url with same | gone
        · rw [same]
          exact owned
        · exact Or.inl gone
      | bad read bad url table =>
        refine iff_of_true (Or.inl url) fun text head again known => ?_
        cases read.symm.trans again
        cases bad.symm.trans known
      | @bodied text head read known other url table =>
        rw [read]
        have none_ : filing s.ctx text = none := by
          unfold filing
          rw [known]
          exact if_neg other
        dsimp only
        rw [none_,or_self,url]
        split
        · rename_i bad
          refine iff_of_true rfl fun text' head' again known' _ fine => ?_
          cases again
          cases known.symm.trans known'
          exact (fine bad).elim
        · rename_i fine
          refine ⟨fun free text' head' again known' _ _ => free,fun clears => clears text head rfl known other fine⟩
      | @recorded text head hash read known get url table =>
        rw [read]
        refine iff_of_true (Or.inr ?_) fun text' head' again known' other => ?_
        · dsimp only
          unfold filing
          rw [known]
          exact url.trans (if_pos get).symm
        · cases again
          cases known.symm.trans known'
          exact (other get).elim
    | server =>
      obtain ⟨url,others⟩ := responseFiled P s.con s.ctx pkts token
      refine ⟨iff_of_true ?_ trivial,fun j other => others j (apart other)⟩
      exact owned.imp url.trans url.trans
  | shut side =>
    cases Option.some.inj next
    obtain ⟨url,others⟩ := shutFiled s.con s.ctx side
    refine ⟨iff_of_true ?_ trivial,fun j other => others j (apart other)⟩
    rcases url with same | gone
    · exact owned.imp same.trans same.trans
    · exact Or.inl gone
  | other act =>
    cases Option.some.inj next
    exact ⟨iff_of_true owned trivial,trivial⟩

/-- A connection follows no entry or that of its latest complete request, event by event, exactly when every
request other than a GET finds none from before; and then what comes from the server changes no other entry. -/
theorem ownedExactly (P : Platform) (con : Con) (ctx : Ctx) (clientAddr localServerAddr : Nat)
    (events : List BlockEvent) :
    (Along (Exchange.step P) (fun _ _ t => t.owned) ⟨ngxHttpSnoopingCreate con clientAddr localServerAddr,ctx,none⟩ events ↔
      Along (Exchange.step P) (fun s e _ => s.clears e)
        ⟨ngxHttpSnoopingCreate con clientAddr localServerAddr,ctx,none⟩ events) ∧
    (Along (Exchange.step P) (fun _ _ t => t.owned) ⟨ngxHttpSnoopingCreate con clientAddr localServerAddr,ctx,none⟩ events →
      Along (Exchange.step P) Exchange.writesOwn
        ⟨ngxHttpSnoopingCreate con clientAddr localServerAddr,ctx,none⟩ events) := by
  have start : Exchange.owned ⟨ngxHttpSnoopingCreate con clientAddr localServerAddr,ctx,none⟩ := Or.inl rfl
  exact ⟨alongExact (fun owned next => ⟨(exchangeOwned owned next).1,id⟩) start,
    alongInvariant (I := Exchange.owned) (fun owned good next => ⟨good,(exchangeOwned owned next).2⟩) start⟩

def getThenPost : List BlockEvent := [
  .data .client ⟨1,true⟩ [⟨0,ascii "GET /x.m3u8 HTTP/1.1" ++ crlf ++ ascii "Host: a" ++ httpEnd⟩] 1,
  .data .server ⟨1,true⟩ [⟨0,ascii "HTTP/1.1 404 Not Found" ++ httpEnd⟩] 1,
  .data .client ⟨1,true⟩ [⟨0,postHeader⟩] 1]

theorem postKeepsEntry : ¬Along (Exchange.step testPlatform) (fun _ _ t => t.owned)
    ⟨ngxHttpSnoopingCreate {} 1 2,ngxHttpSnoopingInit 0,none⟩ getThenPost := by
  unfold Exchange.owned
  decide

end exchanges

end MipsElfExec.Snooping
