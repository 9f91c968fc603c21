import MipsElfExec.Snooping.Connection

/-! What the request side of a connection does with its packets, stage by stage. -/
namespace MipsElfExec.Snooping
open CString

variable {P : Platform} {env : ReplyEnv} {con : Con} {ctx : Ctx} {token : Nat} {arrived : List EfBuf}

def SpState.settled (s : SpState) : Bool :=
  match s with
  | .done | .dataLine | .requestHeaderError => true
  | _ => false

theorem finishSplit {o : Outcome} (settled : o.con.reqState.settled = true) :
    ((requestFinish P o token).chain,(requestFinish P o token).con.requestPktChain) =
      P.getn o.con.requestPktChain token := by
  unfold requestFinish requestForward
  cases state : o.con.reqState <;> rw [state] at settled <;> first | rfl | cases settled

theorem finishSame (o : Outcome) : (requestFinish P o token).ctx = o.ctx ∧
    (requestFinish P o token).reply = o.reply ∧ (requestFinish P o token).freed = o.freed ∧
    (requestFinish P o token).con.reqState = o.con.reqState ∧
    (requestFinish P o token).con.responsePktChain = o.con.responsePktChain ∧
    (requestFinish P o token).con.conUrl = if o.con.reqState = .requestHeaderError then none else o.con.conUrl := by
  unfold requestFinish requestForward
  cases state : o.con.reqState <;> simp [state]

theorem recordSame (con : Con) (ctx : Ctx) (server res : Bytes) :
    (urlRecord con ctx server res).1.requestPktChain = con.requestPktChain ∧
    (urlRecord con ctx server res).1.responsePktChain = con.responsePktChain ∧
    (urlRecord con ctx server res).1.conUrl = ((ngxHttpSnoopingUrlRecord server res).exec ctx).1 ∧
    (urlRecord con ctx server res).2 = ((ngxHttpSnoopingUrlRecord server res).exec ctx).2 := by
  unfold urlRecord
  exact ⟨rfl,rfl,rfl,rfl⟩

inductive Answered (con : Con) (ctx : Ctx) : Outcome → Prop where
  | passed : Answered con ctx { con := con,ctx := ctx }
  | dropped (hash : Nat → Nat) (reply : Option Bytes) :
    Answered con ctx (requestDrop con { ctx with homepageHash := hash } reply)

theorem answerCases (P : Platform) (env : ReplyEnv) (con : Con) (ctx : Ctx) (resUrl : Bytes) :
    Answered con ctx (requestAnswer P env con ctx resUrl) := by
  unfold requestAnswer
  split
  · exact .passed
  · dsimp only
    split
    · unfold ngxHttpSnoopingUrlForbidden
      split
      · exact .dropped ctx.homepageHash none
      · split
        · exact .passed
        · exact .dropped ctx.homepageHash _
    · split
      · unfold ngxHttpSnoopingUrlRedirect
        split
        · exact .passed
        · split
          · exact .dropped ctx.homepageHash none
          · split
            · exact .passed
            · dsimp only
              split
              · exact .dropped _ _
              · exact .dropped ctx.homepageHash _
      · exact .passed

inductive Headed (P : Platform) (con : Con) (ctx : Ctx) (token : Nat) : Outcome → Prop where
  | other {o : Outcome} (settled : o.con.reqState.settled = true) (queue : o.con.requestPktChain = con.requestPktChain)
    (back : o.con.responsePktChain = con.responsePktChain) (url : o.con.conUrl = con.conUrl) (table : o.ctx = ctx)
    (silent : o.reply = none ∧ o.freed = []) : Headed P con ctx token (requestFinish P o token)
  | get {o : Outcome} {mid : Con} {server res : Bytes} (before : mid.requestPktChain = con.requestPktChain)
    (back : mid.responsePktChain = con.responsePktChain)
    (answered : Answered (urlRecord mid ctx server res).1 (urlRecord mid ctx server res).2 o) :
    Headed P con ctx token (requestFinish P { o with con := { o.con with reqState := .done } } token)

theorem headerCases (P : Platform) (env : ReplyEnv) (con : Con) (ctx : Ctx) (token : Nat) :
    Headed P con ctx token (requestHeader P env con ctx token) := by
  unfold requestHeader
  dsimp only
  split
  · exact .other rfl rfl rfl rfl rfl ⟨rfl,rfl⟩
  · rename_i head _
    split
    · refine .get ?_ ?_ (answerCases P env _ _ head.resUrl) <;> rfl
    · split
      · exact .other rfl rfl rfl rfl rfl ⟨rfl,rfl⟩
      · exact .other rfl rfl rfl rfl rfl ⟨rfl,rfl⟩
      · exact .other rfl rfl rfl rfl rfl ⟨rfl,rfl⟩

section header
variable {head : RequestHead}

def Con.headed (con : Con) : Con := { con with reqMethod := (requestMethod (cstr con.reqBuf)).1 }

def Con.bodied (con : Con) (rest : Bytes) : Con :=
  match requestLength rest with
  | .missing => { con with reqDataLen := 0,reqState := .done }
  | .bad => { con with reqDataLen := requestRefused rest con.reqDataLen,reqState := .requestHeaderError }
  | .value n => { con with reqDataLen := n,reqState := .dataLine }

def requestDone (P : Platform) (o : Outcome) (token : Nat) : Outcome :=
  requestFinish P { o with con := { o.con with reqState := .done } } token

theorem headerBad (bad : requestHead (cstr con.reqBuf) = none) : requestHeader P env con ctx token =
    requestFinish P { con := { con.headed with reqState := .requestHeaderError },ctx := ctx } token := by
  unfold requestHeader
  dsimp only
  rw [bad]
  rfl

theorem headerRecorded (known : requestHead (cstr con.reqBuf) = some head) (get : head.method = .get) :
    requestHeader P env con ctx token = requestDone P (requestAnswer P env
      (urlRecord con.headed ctx head.serverName head.resUrl).1
      (urlRecord con.headed ctx head.serverName head.resUrl).2 head.resUrl) token := by
  unfold requestHeader
  dsimp only
  rw [known]
  exact if_pos get

theorem headerBodied (known : requestHead (cstr con.reqBuf) = some head) (other : head.method ≠ .get) :
    requestHeader P env con ctx token =
      requestFinish P { con := con.headed.bodied head.rest,ctx := ctx } token := by
  unfold requestHeader Con.bodied
  dsimp only
  rw [known]
  dsimp only
  rw [if_neg other]
  cases requestLength head.rest <;> rfl

end header

def requestBuf (con : Con) (arrived : List EfBuf) : Bytes :=
  headerFill (httpSpReqHeadLenMax - 1) con.begin.reqBuf arrived

def Con.buffered (con : Con) (arrived : List EfBuf) (state : SpState) : Con :=
  { con.begin with reqBuf := requestBuf con arrived,reqState := state }

theorem initPart (missing : strstr (requestBuf con arrived) httpEnd = none)
    (few : (requestBuf con arrived).length ≤ httpSpReqHeadLenMax - 1) :
    requestInit P env con ctx arrived token = { con := con.buffered arrived .initData,ctx := ctx } := by
  unfold requestInit
  dsimp only
  split
  · exact if_neg (Nat.not_lt_of_le few)
  · rename_i n found
    cases found.symm.trans missing

theorem initLong (missing : strstr (requestBuf con arrived) httpEnd = none)
    (long : httpSpReqHeadLenMax - 1 < (requestBuf con arrived).length) : requestInit P env con ctx arrived token =
      requestFinish P { con := con.buffered arrived .requestHeaderError,ctx := ctx } token := by
  unfold requestInit
  dsimp only
  split
  · exact if_pos long
  · rename_i n found
    cases found.symm.trans missing

theorem initWhole {n : Nat} (found : strstr (requestBuf con arrived) httpEnd = some n) :
    requestInit P env con ctx arrived token = requestHeader P env (con.buffered arrived .requestHeader) ctx token := by
  unfold requestInit
  dsimp only
  split
  · rename_i missing
    cases found.symm.trans missing
  · rfl

inductive Requested (P : Platform) (env : ReplyEnv) (con : Con) (ctx : Ctx) (arrived : List EfBuf) (token : Nat) :
    Outcome → Prop where
  | wait (idle : con.requestPktChain.count = 0 ∨ token = 0) :
    Requested P env con ctx arrived token { con := con,ctx := ctx }
  | part (starts : con.reqState = .init ∨ con.reqState = .initData)
    (partial_ : strstr (requestBuf con arrived) httpEnd = none)
    (short : (requestBuf con arrived).length ≤ httpSpReqHeadLenMax - 1) :
    Requested P env con ctx arrived token
      { con := { con.begin with reqBuf := requestBuf con arrived,reqState := .initData },ctx := ctx }
  | long (starts : con.reqState = .init ∨ con.reqState = .initData)
    (partial_ : strstr (requestBuf con arrived) httpEnd = none)
    (long : httpSpReqHeadLenMax - 1 < (requestBuf con arrived).length) :
    Requested P env con ctx arrived token (requestFinish P
      { con := { con.begin with reqBuf := requestBuf con arrived,reqState := .requestHeaderError },ctx := ctx } token)
  | head (starts : con.reqState = .init ∨ con.reqState = .initData) {n}
    (whole : strstr (requestBuf con arrived) httpEnd = some n) :
    Requested P env con ctx arrived token (requestHeader P env
      { con.begin with reqBuf := requestBuf con arrived,reqState := .requestHeader } ctx token)
  | again (state : con.reqState = .requestHeader) :
    Requested P env con ctx arrived token (requestHeader P env con ctx token)
  | final (settled : con.reqState.settled = true) :
    Requested P env con ctx arrived token (requestFinish P { con := con,ctx := ctx } token)
  | dead (state : con.reqState ≠ .init ∧ con.reqState ≠ .initData ∧ con.reqState ≠ .requestHeader)
    (unsettled : con.reqState.settled = false) : Requested P env con ctx arrived token { con := con,ctx := ctx }

theorem initCases (starts : con.reqState = .init ∨ con.reqState = .initData) :
    Requested P env con ctx arrived token (requestInit P env con ctx arrived token) := by
  cases found : strstr (requestBuf con arrived) httpEnd with
  | none =>
    rcases Nat.lt_or_ge (httpSpReqHeadLenMax - 1) (requestBuf con arrived).length with long | short
    · exact initLong found long ▸ .long starts found long
    · exact initPart found short ▸ .part starts found short
  | some n => exact initWhole found ▸ .head starts found

theorem requestCases (P : Platform) (env : ReplyEnv) (con : Con) (ctx : Ctx) (arrived : List EfBuf) (token : Nat) :
    Requested P env (con.enqueue arrived) ctx arrived token
      (ngxHttpSnoopingRequestParse P env con ctx arrived token) := by
  unfold ngxHttpSnoopingRequestParse
  dsimp only
  split
  · rename_i idle
    exact .wait idle
  · split
    · rename_i state
      exact initCases (Or.inl state)
    · rename_i state
      exact initCases (Or.inr state)
    · rename_i state
      exact .again state
    · rename_i init initData header
      cases settled : (con.enqueue arrived).reqState.settled with
      | true => exact .final settled
      | false =>
        have same : requestFinish P { con := con.enqueue arrived,ctx := ctx } token =
            { con := con.enqueue arrived,ctx := ctx } := by
          unfold requestFinish
          cases state : (con.enqueue arrived).reqState <;> rw [state] at settled <;> first | rfl | cases settled
        rw [same]
        exact .dead ⟨init,initData,header⟩ settled

def requestReaches (con : Con) (arrived : List EfBuf) : Bool :=
  match con.reqState with
  | .init | .initData =>
    (strstr (requestBuf con arrived) httpEnd).isSome || httpSpReqHeadLenMax - 1 < (requestBuf con arrived).length
  | .requestHeader | .done | .dataLine | .requestHeaderError => true
  | _ => false

theorem beginSame (con : Con) : con.begin.requestPktChain = con.requestPktChain ∧
    con.begin.responsePktChain = con.responsePktChain ∧ con.begin.conUrl = con.conUrl := by
  unfold Con.begin
  split <;> exact ⟨rfl,rfl,rfl⟩

theorem headedQueues {o : Outcome} (headed : Headed P con ctx token o) (pass : o.freed = [])
    (pkts : con.requestPktChain.pkts ≠ []) :
    (o.chain,o.con.requestPktChain) = P.getn con.requestPktChain token ∧
    o.con.responsePktChain = con.responsePktChain := by
  cases headed with
  | other settled queue back url table silent =>
    rw [finishSplit settled,queue,(finishSame _).2.2.2.2.1,back]
    exact ⟨rfl,rfl⟩
  | @get o mid server res before back answered =>
    have same := recordSame mid ctx server res
    have freed : [] = o.freed := pass.symm.trans (finishSame _).2.2.1
    cases answered with
    | passed =>
      rw [finishSplit rfl,(finishSame _).2.2.2.2.1]
      exact ⟨by rw [same.1,before],same.2.1.trans back⟩
    | dropped hash reply =>
      refine (pkts ?_).elim
      rw [← before,← same.1]
      exact freed.symm

theorem requestQueues {o : Outcome} (requested : Requested P env con ctx arrived token o)
    (live : ¬(con.requestPktChain.count = 0 ∨ token = 0)) (pass : o.freed = [])
    (pkts : con.requestPktChain.pkts ≠ []) :
    (o.chain,o.con.requestPktChain) =
      (if requestReaches con arrived then P.getn con.requestPktChain token
        else (efBufInitChain,con.requestPktChain)) ∧ o.con.responsePktChain = con.responsePktChain := by
  obtain ⟨front,back,_⟩ := beginSame con
  cases requested with
  | wait idle => exact (live idle).elim
  | part starts partial_ short =>
    have none_ : requestReaches con arrived = false := by
      rcases starts with state | state <;> simp [requestReaches,state,partial_,short]
    rw [none_,if_neg Bool.false_ne_true]
    exact ⟨by rw [front],back⟩
  | long starts partial_ long =>
    have reach : requestReaches con arrived = true := by
      rcases starts with state | state <;> simp [requestReaches,state,long]
    rw [reach,if_pos rfl,finishSplit rfl,(finishSame _).2.2.2.2.1]
    exact ⟨by rw [front],back⟩
  | head starts whole =>
    have reach : requestReaches con arrived = true := by
      rcases starts with state | state <;> simp [requestReaches,state,whole]
    rw [reach,if_pos rfl]
    obtain ⟨split_,rest⟩ := headedQueues (headerCases P env _ ctx token) pass (front ▸ pkts)
    exact ⟨by rw [split_,front],rest.trans back⟩
  | again state =>
    have reach : requestReaches con arrived = true := by simp [requestReaches,state]
    rw [reach,if_pos rfl]
    exact headedQueues (headerCases P env con ctx token) pass pkts
  | final settled =>
    have reach : requestReaches con arrived = true := by
      cases state : con.reqState <;> simp_all [requestReaches,SpState.settled]
    rw [reach,if_pos rfl,finishSplit settled,(finishSame _).2.2.2.2.1]
    exact ⟨rfl,rfl⟩
  | dead state unsettled =>
    have none_ : requestReaches con arrived = false := by
      obtain ⟨init,initData,header⟩ := state
      cases state : con.reqState <;> simp_all [requestReaches,SpState.settled]
    rw [none_,if_neg Bool.false_ne_true]
    exact ⟨rfl,rfl⟩

theorem requestBack {o : Outcome} (requested : Requested P env con ctx arrived token o) :
    o.con.responsePktChain = con.responsePktChain := by
  have header {mid : Con} {o : Outcome} (headed : Headed P mid ctx token o) :
      o.con.responsePktChain = mid.responsePktChain := by
    cases headed with
    | other settled queue back url table silent => exact (finishSame _).2.2.2.2.1.trans back
    | @get o mid' server res before back answered =>
      have responses := (recordSame mid' ctx server res).2.1.trans back
      refine (finishSame _).2.2.2.2.1.trans ?_
      cases answered with
      | passed => exact responses
      | dropped hash reply => exact responses
  have begun := (beginSame con).2.1
  cases requested with
  | wait idle => rfl
  | part starts partial_ short => exact begun
  | long starts partial_ long => exact (finishSame _).2.2.2.2.1.trans begun
  | head starts whole => exact (header (headerCases P env _ ctx token)).trans begun
  | again state => exact header (headerCases P env con ctx token)
  | final settled => exact (finishSame _).2.2.2.2.1
  | dead state unsettled => rfl

end MipsElfExec.Snooping
