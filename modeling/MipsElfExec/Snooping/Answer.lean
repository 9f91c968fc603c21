import MipsElfExec.Snooping.Conserve

/-! A request that the device takes over: it is answered, or its packets go the
usual way, unless the client's queue has no room. -/
namespace MipsElfExec.Snooping
open CString

variable {P : Platform} {env : ReplyEnv} {con : Con} {ctx : Ctx} {id : UrlId} {token : Nat} {arrived : List EfBuf}

def headerText (con : Con) (arrived : List EfBuf) : Option Bytes :=
  match con.reqState with
  | .init | .initData =>
    if (strstr (requestBuf con arrived) httpEnd).isSome then some (cstr (requestBuf con arrived)) else none
  | .requestHeader => some (cstr con.reqBuf)
  | _ => none

theorem headerTextInit (starts : con.reqState = .init ∨ con.reqState = .initData) :
    headerText con arrived =
      if (strstr (requestBuf con arrived) httpEnd).isSome then some (cstr (requestBuf con arrived)) else none := by
  unfold headerText
  rcases starts with state | state <;> rw [state]

theorem requestBegins (starts : con.reqState = .init ∨ con.reqState = .initData) :
    ngxHttpSnoopingRequestParse P env con ctx arrived token =
      if (con.enqueue arrived).requestPktChain.count = 0 ∨ token = 0 then { con := con.enqueue arrived,ctx := ctx }
      else requestInit P env (con.enqueue arrived) ctx arrived token := by
  unfold ngxHttpSnoopingRequestParse
  dsimp only
  split
  · rfl
  · have state : (con.enqueue arrived).reqState = con.reqState := rfl
    rw [state]
    rcases starts with state | state <;> rw [state]

structure Con.sameClient (con con' : Con) : Prop where
  queue : con'.requestPktChain = con.requestPktChain
  client : con'.clientAddr = con.clientAddr

theorem parseHeader {text : Bytes} (live : ¬((con.enqueue arrived).requestPktChain.count = 0 ∨ token = 0))
    (header : headerText (con.enqueue arrived) arrived = some text) :
    ∃ mid,ngxHttpSnoopingRequestParse P env con ctx arrived token = requestHeader P env mid ctx token ∧
      cstr mid.reqBuf = text ∧ (con.enqueue arrived).sameClient mid := by
  have first (starts : (con.enqueue arrived).reqState = .init ∨ (con.enqueue arrived).reqState = .initData) :
      ∃ mid,requestInit P env (con.enqueue arrived) ctx arrived token = requestHeader P env mid ctx token ∧
        cstr mid.reqBuf = text ∧ (con.enqueue arrived).sameClient mid := by
    have text_ := (headerTextInit starts).symm.trans header
    split at text_ <;> try contradiction
    rename_i found
    obtain ⟨n,found⟩ := Option.isSome_iff_exists.mp found
    obtain ⟨front,_,_⟩ := beginSame (con.enqueue arrived)
    refine ⟨{ (con.enqueue arrived).begin with
      reqBuf := requestBuf (con.enqueue arrived) arrived,reqState := .requestHeader },?_,Option.some.inj text_,front,?_⟩
    · unfold requestInit
      dsimp only
      split
      · rename_i missing
        cases missing.symm.trans found
      · rfl
    · unfold Con.begin
      split <;> rfl
  unfold ngxHttpSnoopingRequestParse
  dsimp only
  rw [if_neg live]
  cases state : (con.enqueue arrived).reqState with
  | init => exact first (Or.inl state)
  | initData => exact first (Or.inr state)
  | requestHeader =>
    refine ⟨con.enqueue arrived,rfl,?_,rfl,rfl⟩
    unfold headerText at header
    rw [state] at header
    exact Option.some.inj header
  | _ =>
    unfold headerText at header
    rw [state] at header
    cases header

def decision (con : Con) (ctx : Ctx) (arrived : List EfBuf) (token : Nat) : Option (UrlId × Ctx) :=
  let con := con.enqueue arrived
  if con.requestPktChain.count = 0 ∨ token = 0 then none
  else (headerText con arrived).bind requestHead |>.bind fun head =>
    if head.method = .get then
      match (ngxHttpSnoopingUrlRecord head.serverName head.resUrl).exec ctx with
      | (some id,ctx) =>
        if (ctx.urls id).cacheFlg.forbiden ∨ (ctx.urls id).urlFlags.resWrite ∨ (ctx.urls id).cacheFlg.homepagePoll then
          some (id,ctx)
        else none
      | (none,_) => none
    else none

def Polled (P : Platform) (con : Con) (ctx : Ctx) (id : UrlId) : Prop :=
  (ctx.urls id).cacheFlg.forbiden = false ∧ (ctx.urls id).cacheFlg.homepagePoll = true ∧
    homepageRecent P ctx con.clientAddr = true

def Kept (con : Con) (arrived : List EfBuf) (o : Outcome) : Prop :=
  o.reply ≠ none ∨
    o.freed = [] ∧ o.sent ++ o.con.requestPktChain.pkts = (con.enqueue arrived).requestPktChain.pkts

inductive Decided (P : Platform) (env : ReplyEnv) (con : Con) (ctx : Ctx) (id : UrlId) : Outcome → Prop where
  | passed (ways : Polled P con ctx id ∨ env.freeSpace ≠ 0 ∧ env.efb = false) :
    Decided P env con ctx id { con := con,ctx := ctx }
  | dropped (poll : ¬Polled P con ctx id) (full : env.freeSpace = 0) :
    Decided P env con ctx id (requestDrop con ctx none)
  | replied {ctx' reply} (poll : ¬Polled P con ctx id) (room : env.freeSpace ≠ 0) (efb : env.efb = true) :
    Decided P env con ctx id (requestDrop con ctx' (some reply))

theorem answerDecided (P : Platform) (env : ReplyEnv) {con : Con} {ctx : Ctx} {id : UrlId} (resUrl : Bytes)
    (url : con.conUrl = some id)
    (due : (ctx.urls id).cacheFlg.forbiden = true ∨ (ctx.urls id).urlFlags.resWrite = true ∨
      (ctx.urls id).cacheFlg.homepagePoll = true) :
    Decided P env con ctx id (requestAnswer P env con ctx resUrl) := by
  unfold requestAnswer
  rw [url]
  dsimp only
  split
  · rename_i forbiden
    have poll : ¬Polled P con ctx id := fun poll => Bool.false_ne_true (poll.1.symm.trans forbiden)
    unfold ngxHttpSnoopingUrlForbidden
    split
    · rename_i full
      exact .dropped poll full
    · rename_i room
      split
      · rename_i none_
        exact .passed (Or.inr ⟨room,none_⟩)
      · rename_i efb
        exact .replied poll room (Bool.eq_true_of_not_eq_false efb)
  · rename_i allowed
    split
    · unfold ngxHttpSnoopingUrlRedirect
      split
      · rename_i recent
        exact .passed (Or.inl ⟨Bool.eq_false_of_not_eq_true allowed,Bool.and_eq_true_iff.mp recent⟩)
      · rename_i late
        have poll : ¬Polled P con ctx id := fun poll => late (Bool.and_eq_true_iff.mpr poll.2)
        split
        · rename_i full
          exact .dropped poll full
        · rename_i room
          split
          · rename_i none_
            exact .passed (Or.inr ⟨room,none_⟩)
          · rename_i efb
            exact .replied poll room (Bool.eq_true_of_not_eq_false efb)
    · rename_i other
      exact (other (due.resolve_left allowed)).elim

def Chain.fits (c : Chain) (token : Nat) : Prop := c.count ≤ token ∨ c.pkts.length ≤ token

structure Room (P : Platform) (env : ReplyEnv) (con : Con) (ctx : Ctx) (id : UrlId) (arrived : List EfBuf)
    (token : Nat) : Prop where
  passed : Polled P con ctx id ∨ env.freeSpace ≠ 0 ∧ env.efb = false → (con.enqueue arrived).requestPktChain.fits token
  dropped : ¬Polled P con ctx id → env.freeSpace = 0 → (con.enqueue arrived).requestPktChain.pkts = []

theorem splitKept {c : Chain} {token : Nat} (some_ : c.count ≠ 0) (positive : token ≠ 0) :
    ((if (ngxHttpEfGetn c token).1.count ≠ 0 then (ngxHttpEfGetn c token).1.pkts else []) ++
      (ngxHttpEfGetn c token).2.pkts = c.pkts) ↔ c.fits token := by
  unfold Chain.fits
  rcases Nat.lt_or_ge token c.count with more | enough
  · rw [getnSome more]
    dsimp only
    rw [if_pos positive]
    constructor
    · intro same
      have count := congrArg List.length same
      rw [List.length_append,List.length_take,List.length_drop] at count
      omega
    · intro fits
      have few := fits.resolve_left (Nat.not_le_of_lt more)
      rw [List.take_of_length_le few,List.drop_of_length_le (Nat.le_succ_of_le few),List.append_nil]
  · rw [getnAll enough,if_pos some_]
    exact iff_of_true (List.append_nil _) (Or.inl enough)

theorem headerGet {head : RequestHead} (known : requestHead (cstr con.reqBuf) = some head) (get : head.method = .get) :
    ∃ page : Con,requestHeader P env con ctx token = requestDone P (requestAnswer P env page
        ((ngxHttpSnoopingUrlRecord head.serverName head.resUrl).exec ctx).2 head.resUrl) token ∧
      page.conUrl = ((ngxHttpSnoopingUrlRecord head.serverName head.resUrl).exec ctx).1 ∧ con.sameClient page := by
  obtain ⟨front,_,url,table⟩ := recordSame con.headed ctx head.serverName head.resUrl
  refine ⟨_,?_,url,front,rfl⟩
  rw [headerRecorded known get,table]

theorem doneKept {o : Outcome} {page : Con} (hz : Nat) (addrText : Nat → Bytes) (mimeOf : Bytes → Bytes)
    (live : (con.enqueue arrived).requestPktChain.count ≠ 0 ∧ token ≠ 0) (same : (con.enqueue arrived).sameClient page)
    (decided : Decided (snoopingPlatform hz addrText mimeOf) env page ctx id o) :
    Kept con arrived (requestDone (snoopingPlatform hz addrText mimeOf) o token) ↔
      Room (snoopingPlatform hz addrText mimeOf) env con ctx id arrived token := by
  obtain ⟨queue,client⟩ := same
  have poll : Polled (snoopingPlatform hz addrText mimeOf) page ctx id ↔
      Polled (snoopingPlatform hz addrText mimeOf) con ctx id := by
    unfold Polled
    rw [client]
    exact Iff.rfl
  have empty (token : Nat) : ngxHttpEfGetn efBufInitChain token = (efBufInitChain,efBufInitChain) :=
    getnAll (Nat.zero_le token)
  cases decided with
  | passed ways =>
    rw [poll] at ways
    have kept : Kept con arrived (requestDone (snoopingPlatform hz addrText mimeOf) { con := page,ctx := ctx } token) ↔
        ((if (ngxHttpEfGetn page.requestPktChain token).1.count ≠ 0 then (ngxHttpEfGetn page.requestPktChain token).1.pkts
          else []) ++ (ngxHttpEfGetn page.requestPktChain token).2.pkts = (con.enqueue arrived).requestPktChain.pkts) :=
      ⟨fun kept => (kept.resolve_left fun reply => reply rfl).2,fun same => Or.inr ⟨rfl,same⟩⟩
    rw [kept,queue,splitKept live.1 live.2]
    refine ⟨fun fits => ⟨fun _ => fits,fun other full => ?_⟩,fun room => room.passed ways⟩
    exact (ways.elim other fun way => way.1 full).elim
  | dropped other full =>
    rw [poll] at other
    have kept : Kept con arrived (requestDone (snoopingPlatform hz addrText mimeOf) (requestDrop page ctx none) token) ↔
        page.requestPktChain.pkts = [] ∧
          ((if (ngxHttpEfGetn efBufInitChain token).1.count ≠ 0 then (ngxHttpEfGetn efBufInitChain token).1.pkts
            else []) ++ (ngxHttpEfGetn efBufInitChain token).2.pkts = (con.enqueue arrived).requestPktChain.pkts) :=
      ⟨fun kept => kept.resolve_left fun reply => reply rfl,Or.inr⟩
    rw [kept,queue,empty]
    refine ⟨fun kept => ⟨fun ways => ?_,fun _ _ => kept.1⟩,fun room => ?_⟩
    · exact (ways.elim other fun way => way.1 full).elim
    · have none_ := room.dropped other full
      exact ⟨none_,none_.symm⟩
  | replied other room efb =>
    rw [poll] at other
    refine iff_of_true (Or.inl nofun) ⟨fun ways => ?_,fun _ full => (room full).elim⟩
    exact (ways.elim other fun way => Bool.false_ne_true (way.2.symm.trans efb)).elim

theorem decidedParse {after : Ctx} (decided : decision con ctx arrived token = some (id,after)) :
    ((con.enqueue arrived).requestPktChain.count ≠ 0 ∧ token ≠ 0) ∧
    (headerText (con.enqueue arrived) arrived).isSome ∧
    ∃ page o,ngxHttpSnoopingRequestParse P env con ctx arrived token = requestDone P o token ∧
      (con.enqueue arrived).sameClient page ∧ Decided P env page after id o := by
  unfold decision at decided
  dsimp only at decided
  split at decided <;> try contradiction
  rename_i live
  obtain ⟨head,known,decided⟩ := Option.bind_eq_some_iff.mp decided
  obtain ⟨text,header,known⟩ := Option.bind_eq_some_iff.mp known
  split at decided <;> try contradiction
  rename_i get
  split at decided <;> try contradiction
  rename_i id' ctx' recorded
  split at decided <;> try contradiction
  rename_i due
  cases Option.some.inj decided
  obtain ⟨mid,path,text_,same⟩ := @parseHeader P env _ ctx _ _ _ live header
  obtain ⟨page,finish,url,same'⟩ := @headerGet P env _ ctx token _ (text_ ▸ known) get
  rw [recorded] at finish url
  have answered := answerDecided P env head.resUrl url due
  refine ⟨not_or.mp live,by rw [header]; rfl,page,_,path.trans finish,?_,answered⟩
  exact ⟨same'.queue.trans same.queue,same'.client.trans same.client⟩

/-- A GET that the device takes over is answered or keeps its packets exactly when the client's
queue has room for the answer, or the packets go on and the token takes them all. -/
theorem answeredExactly (hz : Nat) (addrText : Nat → Bytes) (mimeOf : Bytes → Bytes) {env : ReplyEnv} {con : Con}
    {ctx after : Ctx} {arrived : List EfBuf} {token : Nat} {id : UrlId}
    (decided : decision con ctx arrived token = some (id,after)) :
    Kept con arrived (ngxHttpSnoopingRequestParse (snoopingPlatform hz addrText mimeOf) env con ctx arrived token) ↔
      Room (snoopingPlatform hz addrText mimeOf) env con after id arrived token := by
  obtain ⟨live,_,page,o,path,same,answered⟩ := decidedParse decided
  rw [path]
  exact doneKept hz addrText mimeOf live same answered

def homepageGet : List EfBuf := [⟨1,ascii "GET / HTTP/1.1" ++ crlf ++ ascii "Host: a" ++ httpEnd⟩]

theorem homepageDecided :
    (decision {} (ngxHttpSnoopingInit 0) homepageGet 1).map Prod.fst = some (32767 : UrlId) := by decide

theorem homepageExactly : ∃ after,decision {} (ngxHttpSnoopingInit 0) homepageGet 1 = some (32767,after) ∧
    (Kept {} homepageGet (ngxHttpSnoopingRequestParse (snoopingPlatform 100 (fun _ => []) (fun _ => [])) ⟨1,true⟩ {}
        (ngxHttpSnoopingInit 0) homepageGet 1) ↔
      Room (snoopingPlatform 100 (fun _ => []) (fun _ => [])) ⟨1,true⟩ {} after 32767 homepageGet 1) := by
  obtain ⟨⟨id,after⟩,decided,same⟩ := Option.map_eq_some_iff.mp homepageDecided
  cases same
  exact ⟨after,decided,answeredExactly 100 (fun _ => []) (fun _ => []) decided⟩

theorem homepageFreed : (decision {} (ngxHttpSnoopingInit 0) homepageGet 1).isSome = true ∧
    ¬Kept {} homepageGet (ngxHttpSnoopingRequestParse (snoopingPlatform 100 (fun _ => []) (fun _ => [])) ⟨0,true⟩ {}
      (ngxHttpSnoopingInit 0) homepageGet 1) := by
  have lost : (ngxHttpSnoopingRequestParse (snoopingPlatform 100 (fun _ => []) (fun _ => [])) ⟨0,true⟩ {}
      (ngxHttpSnoopingInit 0) homepageGet 1).reply = none ∧ (ngxHttpSnoopingRequestParse
      (snoopingPlatform 100 (fun _ => []) (fun _ => [])) ⟨0,true⟩ {} (ngxHttpSnoopingInit 0) homepageGet 1).freed ≠ [] := by
    decide
  refine ⟨by decide,fun kept => ?_⟩
  rcases kept with reply | passed
  · exact reply lost.1
  · exact lost.2 passed.1

end MipsElfExec.Snooping
