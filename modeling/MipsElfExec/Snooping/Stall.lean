import MipsElfExec.Snooping.Answer
import MipsElfExec.Snooping.Discard
import MipsElfExec.Snooping.Leftover

/-! When a data event lets something through: it gets as far as the split of its queue, or the
header that waits there may still grow. -/
namespace MipsElfExec.Snooping
open CString Run

variable {P : Platform} {env : ReplyEnv} {con : Con} {ctx : Ctx} {token : Nat} {arrived : List EfBuf}

section split_
variable {hz : Nat} {addrText : Nat → Bytes} {mimeOf : Bytes → Bytes}

theorem getnMoves {c : Chain} (counted : c.counted) (some_ : c.pkts ≠ []) (positive : token ≠ 0) :
    (ngxHttpEfGetn c token).1.count ≠ 0 ∧ (ngxHttpEfGetn c token).1.pkts ≠ [] := by
  have whole : c.count ≠ 0 := by
    rw [counted]
    exact fun none_ => some_ (List.length_eq_zero_iff.mp none_)
  rcases Nat.lt_or_ge token c.count with more | enough
  · rw [getnSome more]
    refine ⟨positive,fun none_ => ?_⟩
    rcases List.take_eq_nil_iff.mp none_ with zero | empty
    · exact positive zero
    · exact some_ empty
  · rw [getnAll enough]
    exact ⟨whole,some_⟩

def requestDropped (P : Platform) (env : ReplyEnv) (con : Con) (ctx : Ctx) (arrived : List EfBuf) (token : Nat) : Prop :=
  ∃ id after,decision con ctx arrived token = some (id,after) ∧ ¬Polled P con after id ∧ env.freeSpace = 0

theorem textReaches (header : (headerText con arrived).isSome) : requestReaches con arrived = true := by
  unfold headerText at header
  unfold requestReaches
  cases state : con.reqState with
  | init | initData =>
    rw [state] at header
    dsimp only at header ⊢
    split at header
    · rename_i found
      rw [found]
      rfl
    · cases header
  | requestHeader | done | dataLine | requestHeaderError => rfl
  | requestHeaderData | dataLineData | headerError | dataError =>
    rw [state] at header
    cases header

theorem answerUndue {resUrl : Bytes} (undue : ∀ id,con.conUrl = some id → ¬((ctx.urls id).cacheFlg.forbiden = true ∨
    (ctx.urls id).urlFlags.resWrite = true ∨ (ctx.urls id).cacheFlg.homepagePoll = true)) :
    requestAnswer P env con ctx resUrl = { con := con,ctx := ctx } := by
  unfold requestAnswer
  cases url : con.conUrl with
  | none => rfl
  | some id =>
    obtain ⟨allowed,rest⟩ := not_or.mp (undue id url)
    dsimp only
    rw [if_neg allowed,if_neg rest]

theorem finishQuiet (P : Platform) {o : Outcome} (quiet : o.reply = none ∧ o.freed = []) (token : Nat) :
    (requestFinish P o token).reply = none ∧ (requestFinish P o token).freed = [] := by
  obtain ⟨_,reply,freed,_⟩ := @finishSame P token o
  exact ⟨reply.trans quiet.1,freed.trans quiet.2⟩

theorem undecidedQuiet (live : ¬((con.enqueue arrived).requestPktChain.count = 0 ∨ token = 0))
    (undecided : decision con ctx arrived token = none) :
    (ngxHttpSnoopingRequestParse P env con ctx arrived token).reply = none ∧
    (ngxHttpSnoopingRequestParse P env con ctx arrived token).freed = [] := by
  cases header : headerText (con.enqueue arrived) arrived with
  | some text =>
    obtain ⟨mid,path,text_,_⟩ := @parseHeader P env _ ctx _ _ _ live header
    rw [path]
    cases known : requestHead text with
    | none =>
      rw [headerBad (text_ ▸ known)]
      exact finishQuiet P ⟨rfl,rfl⟩ token
    | some head =>
      rcases Decidable.em (head.method = .get) with get | other
      · obtain ⟨_,_,url,table⟩ := recordSame mid.headed ctx head.serverName head.resUrl
        rw [headerRecorded (text_ ▸ known) get,answerUndue fun id filed due => ?_]
        · exact finishQuiet P ⟨rfl,rfl⟩ token
        · rw [url] at filed
          rw [table] at due
          unfold decision at undecided
          dsimp only at undecided
          rw [if_neg live,header] at undecided
          simp only [Option.bind_some,known,if_pos get] at undecided
          split at undecided
          · rename_i id' ctx' recorded
            rw [recorded] at filed due
            cases filed
            rw [if_pos due] at undecided
            cases undecided
          · rename_i ctx' recorded
            rw [recorded] at filed
            cases filed
      · rw [headerBodied (text_ ▸ known) other]
        exact finishQuiet P ⟨rfl,rfl⟩ token
  | none =>
    have requested := requestCases P env con ctx arrived token
    generalize ngxHttpSnoopingRequestParse P env con ctx arrived token = o at requested ⊢
    cases requested with
    | wait idle => exact (live idle).elim
    | part => exact ⟨rfl,rfl⟩
    | long => exact finishQuiet P ⟨rfl,rfl⟩ token
    | head starts whole =>
      rw [headerTextInit starts,whole] at header
      cases header
    | again state =>
      unfold headerText at header
      rw [state] at header
      cases header
    | final => exact finishQuiet P ⟨rfl,rfl⟩ token
    | dead => exact ⟨rfl,rfl⟩

theorem chainSent {o : Outcome} (moves : o.chain.count ≠ 0 ∧ o.chain.pkts ≠ []) : o.sent ≠ [] := by
  unfold Outcome.sent
  rw [if_pos moves.1]
  exact moves.2

theorem requestMoves (counted : con.requestPktChain.counted) (some_ : con.requestPktChain.pkts ++ arrived ≠ [])
    (positive : token ≠ 0) :
    let o := ngxHttpSnoopingRequestParse (snoopingPlatform hz addrText mimeOf) env con ctx arrived token
    o.sent ≠ [] ∨ o.reply ≠ none ↔ requestReaches (con.enqueue arrived) arrived = true ∧
      ¬requestDropped (snoopingPlatform hz addrText mimeOf) env con ctx arrived token := by
  have whole : (con.enqueue arrived).requestPktChain.counted := (@flowWait _ [] arrived _ ⟨rfl,counted⟩).counted
  have moves := getnMoves whole some_ positive
  have count : (con.enqueue arrived).requestPktChain.count ≠ 0 := by
    rw [whole]
    exact fun none_ => some_ (List.length_eq_zero_iff.mp none_)
  have live : ¬((con.enqueue arrived).requestPktChain.count = 0 ∨ token = 0) := not_or.mpr ⟨count,positive⟩
  dsimp only
  cases decided : decision con ctx arrived token with
  | none =>
    have kept : ¬requestDropped (snoopingPlatform hz addrText mimeOf) env con ctx arrived token := by
      rintro ⟨id,after,due,_⟩
      cases decided.symm.trans due
    obtain ⟨reply,freed⟩ := @undecidedQuiet (snoopingPlatform hz addrText mimeOf) env _ _ _ _ live decided
    have requested := requestCases (snoopingPlatform hz addrText mimeOf) env con ctx arrived token
    obtain ⟨queue,_⟩ := requestQueues requested live freed some_
    have chain := congrArg Prod.fst queue
    dsimp only at chain
    cases reach : requestReaches (con.enqueue arrived) arrived with
    | true =>
      rw [reach,if_pos rfl] at chain
      refine iff_of_true (.inl (chainSent ?_)) ⟨rfl,kept⟩
      rw [chain]
      exact moves
    | false =>
      rw [reach,if_neg Bool.false_ne_true] at chain
      refine iff_of_false (fun either => ?_) (fun both => Bool.false_ne_true both.1)
      rcases either with sent | replied
      · unfold Outcome.sent at sent
        rw [chain] at sent
        exact sent rfl
      · exact replied reply
  | some pair =>
    obtain ⟨id,after⟩ := pair
    obtain ⟨_,header,page,o,path,same,answer⟩ :=
      @decidedParse (snoopingPlatform hz addrText mimeOf) env _ _ _ _ _ _ decided
    have polled : Polled (snoopingPlatform hz addrText mimeOf) page after id ↔
        Polled (snoopingPlatform hz addrText mimeOf) con after id := by
      unfold Polled
      rw [same.client]
      exact Iff.rfl
    rw [path,textReaches header]
    cases answer with
    | passed ways =>
      refine iff_of_true (.inl (chainSent ?_)) ⟨rfl,?_⟩
      · change (ngxHttpEfGetn page.requestPktChain token).1.count ≠ 0 ∧ (ngxHttpEfGetn page.requestPktChain token).1.pkts ≠ []
        rw [same.queue]
        exact moves
      · rintro ⟨id',after',due,poll,full⟩
        cases decided.symm.trans due
        exact ways.elim (fun recent => poll (polled.mp recent)) fun way => way.1 full
    | dropped poll full =>
      refine iff_of_false (fun either => ?_) fun both => both.2 ⟨id,after,decided,fun recent => poll (polled.mpr recent),full⟩
      have empty : ngxHttpEfGetn efBufInitChain token = (efBufInitChain,efBufInitChain) := getnAll (Nat.zero_le token)
      have chain : (requestDone (snoopingPlatform hz addrText mimeOf) (requestDrop page after none) token).chain =
          efBufInitChain := congrArg Prod.fst empty
      rcases either with sent | replied
      · unfold Outcome.sent at sent
        rw [chain] at sent
        exact sent rfl
      · exact replied rfl
    | replied poll room efb =>
      refine iff_of_true (.inr nofun) ⟨rfl,?_⟩
      rintro ⟨id',after',due,_,full⟩
      exact room full

theorem responseMoves (counted : con.responsePktChain.counted) (some_ : con.responsePktChain.pkts ++ arrived ≠ [])
    (positive : token ≠ 0) :
    let o := ngxHttpSnoopingResponseParse (snoopingPlatform hz addrText mimeOf) con ctx arrived token
    o.sent ≠ [] ∨ o.reply ≠ none ↔ responseReaches (con.enqueueResponse arrived) arrived = true ∧
      discards con ctx arrived = false := by
  have whole : (con.enqueueResponse arrived).responsePktChain.counted := (@flowWait _ [] arrived _ ⟨rfl,counted⟩).counted
  have moves := getnMoves whole some_ positive
  have replied := responseCases (snoopingPlatform hz addrText mimeOf) con ctx arrived token
  dsimp only
  generalize ngxHttpSnoopingResponseParse (snoopingPlatform hz addrText mimeOf) con ctx arrived token = o at replied ⊢
  cases replied with
  | wait idle =>
    have count : (con.enqueueResponse arrived).responsePktChain.count ≠ 0 := by
      rw [whole]
      exact fun none_ => some_ (List.length_eq_zero_iff.mp none_)
    exact (idle.elim count positive).elim
  | plain free =>
    have reach : responseReaches (con.enqueueResponse arrived) arrived = true := by
      rcases free with none_ | error
      · simp [responseReaches,none_]
      · simp [responseReaches,error]
    have kept : discards con ctx arrived = false := by
      unfold discards
      rcases free with none_ | error
      · rw [show con.conUrl = none from none_]
      · rw [show con.reqState = .requestHeaderError from error]
        cases con.conUrl <;> rfl
    exact iff_of_true (.inl (chainSent moves)) ⟨reach,kept⟩
  | @page id o owner valid responded =>
    obtain ⟨closes,stored⟩ := pageFlags responded
    have due : discards con ctx arrived = (statesReach (con.enqueueResponse arrived) arrived &&
        (o.ctx.urls id).cacheFlg.conClose && (o.ctx.urls id).urlFlags.resWrite) := by
      unfold discards
      rw [show con.conUrl = some id from owner,closes,stored]
      dsimp only
      rw [bne_iff_ne.mpr (show con.reqState ≠ .requestHeaderError from valid),Bool.true_and]
    have reach : responseReaches (con.enqueueResponse arrived) arrived =
        statesReach (con.enqueueResponse arrived) arrived := by
      simp [responseReaches,owner,valid]
    have chain := congrArg Prod.fst responded.queue
    dsimp only at chain
    rw [reach,due]
    unfold responseDiscard
    dsimp only
    cases reaches : statesReach (con.enqueueResponse arrived) arrived with
    | true =>
      rw [reaches,if_pos rfl] at chain
      rw [Bool.true_and]
      split
      · rename_i now
        rw [now.1,now.2.2]
        refine iff_of_false (fun either => ?_) fun both => Bool.noConfusion both.2
        exact either.elim (fun sent => sent rfl) fun replied => replied responded.silent.1
      · rename_i kept
        refine iff_of_true (.inl (chainSent ?_)) ⟨rfl,Bool.eq_false_of_not_eq_true fun both => kept ?_⟩
        · rw [chain]
          exact moves
        · obtain ⟨closes,stored⟩ := Bool.and_eq_true_iff.mp both
          exact ⟨closes,by rw [chain]; exact moves.1,stored⟩
    | false =>
      rw [reaches,if_neg Bool.false_ne_true] at chain
      refine iff_of_false ?_ fun both => Bool.false_ne_true both.1
      rw [if_neg fun discards => discards.2.1 (congrArg Chain.count chain)]
      rintro (sent | replied)
      · unfold Outcome.sent at sent
        rw [chain] at sent
        exact sent rfl
      · exact replied responded.silent.1

theorem requestDrops {o : Outcome} (requested : Requested P env con ctx arrived token o) (drops : o.freed ≠ []) :
    o.con.requestPktChain = (P.getn efBufInitChain token).2 := by
  have header {mid : Con} {o : Outcome} (headed : Headed P mid ctx token o) (drops : o.freed ≠ []) :
      o.con.requestPktChain = (P.getn efBufInitChain token).2 := by
    cases headed with
    | other settled queue back url table silent => exact (drops (finishQuiet P silent token).2).elim
    | @get o mid' server res before back answered =>
      cases answered with
      | passed => exact (drops (finishSame _).2.2.1).elim
      | dropped hash reply => rfl
  cases requested with
  | wait => exact (drops rfl).elim
  | part => exact (drops rfl).elim
  | long => exact (drops (finishQuiet P ⟨rfl,rfl⟩ token).2).elim
  | head starts whole => exact header (headerCases P env _ ctx token) drops
  | again state => exact header (headerCases P env con ctx token) drops
  | final => exact (drops (finishQuiet P ⟨rfl,rfl⟩ token).2).elim
  | dead => exact (drops rfl).elim

theorem responseKeeps {o : Outcome} (replied : Replied P con ctx arrived token o)
    (live : ¬(con.responsePktChain.count = 0 ∨ token = 0)) : o.con.requestPktChain = con.requestPktChain ∧
      o.con.responsePktChain =
        if responseReaches con arrived then (P.getn con.responsePktChain token).2 else con.responsePktChain := by
  cases replied with
  | wait idle => exact (live idle).elim
  | plain free =>
    have reach : responseReaches con arrived = true := by
      rcases free with none_ | error
      · simp [responseReaches,none_]
      · simp [responseReaches,error]
    rw [reach]
    exact ⟨rfl,rfl⟩
  | @page id o owner valid responded =>
    have reach : responseReaches con arrived = statesReach con arrived := by simp [responseReaches,owner,valid]
    have queue := congrArg Prod.snd responded.queue
    dsimp only at queue
    rw [(discardSame o id).1,queue,reach]
    refine ⟨responded.keeps.1,?_⟩
    split <;> rfl

theorem getnRest {c : Chain} {reach : Bool} (counted : c.counted) (spared : reach = false ∨ c.count ≤ token) :
    (if reach then (ngxHttpEfGetn c token).2 else c).counted := by
  cases reach with
  | false => exact counted
  | true =>
    rw [if_pos rfl,getnAll (spared.resolve_left Bool.noConfusion)]
    rfl

theorem requestCounted (counted : con.requestPktChain.counted)
    (spared : token = 0 ∨ requestReaches (con.enqueue arrived) arrived = false ∨
      con.requestPktChain.count + arrived.length ≤ token) :
    let o := ngxHttpSnoopingRequestParse (snoopingPlatform hz addrText mimeOf) env con ctx arrived token
    o.con.requestPktChain.counted ∧ o.con.responsePktChain = con.responsePktChain := by
  have whole : (con.enqueue arrived).requestPktChain.counted := (@flowWait _ [] arrived _ ⟨rfl,counted⟩).counted
  have requested := requestCases (snoopingPlatform hz addrText mimeOf) env con ctx arrived token
  dsimp only
  by_cases idle : (con.enqueue arrived).requestPktChain.count = 0 ∨ token = 0
  · have same : ngxHttpSnoopingRequestParse (snoopingPlatform hz addrText mimeOf) env con ctx arrived token =
        { con := con.enqueue arrived,ctx := ctx } := if_pos idle
    rw [same]
    exact ⟨whole,rfl⟩
  · generalize ngxHttpSnoopingRequestParse (snoopingPlatform hz addrText mimeOf) env con ctx arrived token = o at requested ⊢
    rcases Decidable.em (o.freed = []) with pass | drops
    · obtain ⟨queue,back⟩ := requestQueues requested idle pass (wholePkts whole (not_or.mp idle).1)
      have rest := congrArg Prod.snd queue
      dsimp only at rest
      refine ⟨?_,back⟩
      have kept := getnRest whole (spared.resolve_left (not_or.mp idle).2)
      rw [rest]
      split
      · rename_i reach
        rw [reach] at kept
        exact kept
      · exact whole
    · have queue := requestDrops requested drops
      have back := requestBack requested
      refine ⟨?_,back⟩
      have empty : ngxHttpEfGetn efBufInitChain token = (efBufInitChain,efBufInitChain) := getnAll (Nat.zero_le token)
      rw [queue]
      change (ngxHttpEfGetn efBufInitChain token).2.counted
      rw [empty]
      rfl

theorem responseCounted (counted : con.responsePktChain.counted)
    (spared : token = 0 ∨ responseReaches (con.enqueueResponse arrived) arrived = false ∨
      con.responsePktChain.count + arrived.length ≤ token) :
    let o := ngxHttpSnoopingResponseParse (snoopingPlatform hz addrText mimeOf) con ctx arrived token
    o.con.responsePktChain.counted ∧ o.con.requestPktChain = con.requestPktChain := by
  have whole : (con.enqueueResponse arrived).responsePktChain.counted := (@flowWait _ [] arrived _ ⟨rfl,counted⟩).counted
  dsimp only
  by_cases idle : (con.enqueueResponse arrived).responsePktChain.count = 0 ∨ token = 0
  · have same : ngxHttpSnoopingResponseParse (snoopingPlatform hz addrText mimeOf) con ctx arrived token =
        { con := con.enqueueResponse arrived,ctx := ctx } := if_pos idle
    rw [same]
    exact ⟨whole,rfl⟩
  · obtain ⟨back,queue⟩ := responseKeeps (responseCases (snoopingPlatform hz addrText mimeOf) con ctx arrived token) idle
    refine ⟨?_,back⟩
    rw [queue]
    exact getnRest whole (spared.resolve_left (not_or.mp idle).2)

end split_

section talk
variable {hz : Nat} {addrText : Nat → Bytes} {mimeOf : Bytes → Bytes} {side : Side}

structure Talk where
  con : Con
  ctx : Ctx
  message : Side → List EfBuf := fun _ => []

def Con.opens (con : Con) : Side → Bool
  | .client => con.reqState == .init || con.reqState == .initData
  | .server => con.resState == .init || con.resState == .initData

def Talk.goes (s : Talk) (side : Side) (arrived : List EfBuf) (o : Outcome) : Talk where
  con := o.con
  ctx := o.ctx
  message d :=
    if s.con.opens d = false then []
    else if d = side then if o.sent = [] ∧ o.freed = [] then s.message d ++ arrived else []
    else s.message d

def Talk.step (P : Platform) (s : Talk) : BlockEvent → Option Talk
  | .data side env pkts token => some (s.goes side pkts (ngxHttpSnoopingData P env s.con s.ctx side pkts token))
  | .shut side =>
    let (con,ctx) := ngxHttpSnoopingShut s.con s.ctx side
    some { s with con := con,ctx := ctx }
  | .other act => some { s with ctx := act s.ctx }

def Talk.start (con : Con) (ctx : Ctx) (clientAddr localServerAddr : Nat) : Talk :=
  { con := ngxHttpSnoopingCreate con clientAddr localServerAddr,ctx := ctx }

structure Talk.waits (s : Talk) (side : Side) (arrived : List EfBuf) : Prop where
  opens : s.con.opens side = true
  queue : (s.con.queue side).pkts = s.message side
  partial_ : search httpEnd (pktBytes (s.message side ++ arrived)) = none
  few : (pktBytes (s.message side ++ arrived)).length < headerRoom side

def Talk.due (s : Talk) (side : Side) (arrived : List EfBuf) (token : Nat) : Prop :=
  token ≠ 0 ∧ (s.con.queue side).pkts ++ arrived ≠ []

def Talk.moves (P : Platform) (s : Talk) : BlockEvent → Prop
  | .data side env pkts token => s.due side pkts token →
    let o := ngxHttpSnoopingData P env s.con s.ctx side pkts token
    o.sent ≠ [] ∨ s.waits side pkts ∨ o.reply ≠ none
  | _ => True

def Talk.discards (P : Platform) (s : Talk) (env : ReplyEnv) (pkts : List EfBuf) (token : Nat) : Side → Prop
  | .client => requestDropped P env s.con s.ctx pkts token
  | .server => Snooping.discards s.con s.ctx pkts = true

def Talk.passes (P : Platform) (s : Talk) : BlockEvent → Prop
  | .data side env pkts token => s.due side pkts token → s.waits side pkts ∨
    dataReaches s.con ⟨s.ctx,env,side,pkts,token⟩ = true ∧ ¬s.discards P env pkts token side
  | _ => True

-- No split has lost a packet of this queue; behind a loss the walk of the next one leaves the list.
def Talk.intact (s : Talk) : BlockEvent → Prop
  | .data side _ _ _ => (s.con.queue side).counted
  | _ => True

theorem movesExact {s : Talk} {e : BlockEvent} (intact : s.intact e) :
    s.moves (snoopingPlatform hz addrText mimeOf) e ↔ s.passes (snoopingPlatform hz addrText mimeOf) e := by
  cases e with
  | data side env pkts token =>
    have forward : s.due side pkts token → ((ngxHttpSnoopingData (snoopingPlatform hz addrText mimeOf) env s.con s.ctx
          side pkts token).sent ≠ [] ∨ (ngxHttpSnoopingData (snoopingPlatform hz addrText mimeOf) env s.con s.ctx side
          pkts token).reply ≠ none ↔ dataReaches s.con ⟨s.ctx,env,side,pkts,token⟩ = true ∧
        ¬s.discards (snoopingPlatform hz addrText mimeOf) env pkts token side) := by
      rintro ⟨positive,some_⟩
      cases side with
      | client => exact requestMoves intact some_ positive
      | server => exact (responseMoves intact some_ positive).trans (and_congr_right fun _ => Bool.eq_false_iff)
    unfold Talk.moves Talk.passes
    dsimp only
    refine forall_congr' fun due => ?_
    rw [← forward due,or_left_comm]
  | shut => exact Iff.rfl
  | other => exact Iff.rfl

def Talk.spares (s : Talk) : BlockEvent → Prop
  | .data side env pkts token => token = 0 ∨ dataReaches s.con ⟨s.ctx,env,side,pkts,token⟩ = false ∨
    (s.con.queue side).count + pkts.length ≤ token
  | _ => True

def Talk.whole (s : Talk) : Prop := ∀ side,(s.con.queue side).counted

theorem shutQueue (con : Con) (ctx : Ctx) (side : Side) {d : Side} (counted : (con.queue d).counted) :
    ((ngxHttpSnoopingShut con ctx side).1.queue d).counted := by
  have left : ((con.leave side).queue d).counted := by
    cases side <;> exact counted
  have emptied (c : Chain) (counted : c.counted) : (if 0 < c.count then efBufInitChain else c).counted := by
    split
    · rfl
    · exact counted
  unfold ngxHttpSnoopingShut
  split
  · dsimp only
    split
    · cases d with
      | client => exact emptied _ left
      | server => exact emptied _ left
    · exact left
  · exact counted

theorem wholeStep {s t : Talk} {e : BlockEvent} (whole : s.whole) (spared : s.spares e)
    (next : s.step (snoopingPlatform hz addrText mimeOf) e = some t) : t.whole := by
  cases e with
  | data side env pkts token =>
    cases Option.some.inj next
    cases side with
    | client =>
      obtain ⟨own,other⟩ := @requestCounted env s.con s.ctx token pkts hz addrText mimeOf (whole .client) spared
      intro d
      cases d with
      | client => exact own
      | server => exact (congrArg Chain.counted other).mpr (whole .server)
    | server =>
      obtain ⟨own,other⟩ := @responseCounted s.con s.ctx token pkts hz addrText mimeOf (whole .server) spared
      intro d
      cases d with
      | client => exact (congrArg Chain.counted other).mpr (whole .client)
      | server => exact own
  | shut side =>
    cases Option.some.inj next
    exact fun d => shutQueue s.con s.ctx side (whole d)
  | other act =>
    cases Option.some.inj next
    exact whole

/-- As long as a queue is intact, a data event lets a packet through, unless it waits or the request is answered, exactly
when it gets to the split and discards nothing; and a run whose splits spare every packet keeps all queues intact. -/
theorem trafficMovesExactly (hz : Nat) (addrText : Nat → Bytes) (mimeOf : Bytes → Bytes) (con : Con) (ctx : Ctx)
    (clientAddr localServerAddr : Nat) (events : List BlockEvent) :
    (Along (Talk.step (snoopingPlatform hz addrText mimeOf))
        (fun s e _ => s.intact e → s.moves (snoopingPlatform hz addrText mimeOf) e)
        (.start con ctx clientAddr localServerAddr) events ↔
      Along (Talk.step (snoopingPlatform hz addrText mimeOf))
        (fun s e _ => s.intact e → s.passes (snoopingPlatform hz addrText mimeOf) e)
        (.start con ctx clientAddr localServerAddr) events) ∧
    (Along (Talk.step (snoopingPlatform hz addrText mimeOf))
        (fun s e _ => s.spares e ∧ s.passes (snoopingPlatform hz addrText mimeOf) e)
        (.start con ctx clientAddr localServerAddr) events →
      Along (Talk.step (snoopingPlatform hz addrText mimeOf))
        (fun s e _ => s.moves (snoopingPlatform hz addrText mimeOf) e)
        (.start con ctx clientAddr localServerAddr) events) := by
  have start : (Talk.start con ctx clientAddr localServerAddr).whole := by
    intro side
    cases side <;> rfl
  have intact {s : Talk} (whole : s.whole) (e : BlockEvent) : s.intact e := by
    cases e with
    | data side env pkts token => exact whole side
    | shut => trivial
    | other => trivial
  refine ⟨⟨alongImp fun moves intact => (movesExact intact).mp (moves intact),
    alongImp fun passes intact => (movesExact intact).mpr (passes intact)⟩,?_⟩
  exact alongInvariant (I := Talk.whole)
    (fun whole both next => ⟨wholeStep whole both.1 next,(movesExact (intact whole _)).mpr both.2⟩) start

def longHeader : List EfBuf := [⟨0,List.replicate 1400 65⟩,⟨1,List.replicate 1400 65⟩]

theorem headerStalls : ¬Along (Talk.step testPlatform) (fun s e _ => s.intact e → s.moves testPlatform e)
    (.start {} (ngxHttpSnoopingInit 0) 1 2) [.data .client ⟨1,true⟩ longHeader 2] := by
  intro all
  have moves := (all _ rfl).1 rfl ⟨by decide,List.cons_ne_nil _ _⟩
  have stalls : (ngxHttpSnoopingData testPlatform ⟨1,true⟩ (ngxHttpSnoopingCreate {} 1 2) (ngxHttpSnoopingInit 0) .client
      longHeader 2).sent = [] ∧ (ngxHttpSnoopingData testPlatform ⟨1,true⟩ (ngxHttpSnoopingCreate {} 1 2)
      (ngxHttpSnoopingInit 0) .client longHeader 2).reply = none := by
    decide +kernel
  rcases moves with sent | waits | answered
  · exact sent stalls.1
  · exact absurd waits.few (by decide +kernel)
  · exact answered stalls.2

end talk

end MipsElfExec.Snooping
