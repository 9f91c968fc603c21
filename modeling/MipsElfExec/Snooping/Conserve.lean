import MipsElfExec.Lib.Run
import MipsElfExec.Snooping.Request
import MipsElfExec.Snooping.Response

/-! Packet conservation. As long as nothing is answered or dropped on the device, what
was sent followed by what is queued is what came in, until a split leaves packets behind. -/
namespace MipsElfExec.Snooping
open CString Run

variable {hz : Nat} {addrText : Nat → Bytes} {mimeOf : Bytes → Bytes}

def snoopingPlatform (hz : Nat) (addrText : Nat → Bytes) (mimeOf : Bytes → Bytes) : Platform :=
  ⟨ngxHttpEfGetn,hz,addrText,mimeOf⟩

structure Traffic where
  con : Con
  reqIn : List EfBuf
  reqOut : List EfBuf
  resIn : List EfBuf
  resOut : List EfBuf

structure Delivery where
  ctx : Ctx
  env : ReplyEnv
  side : Side
  pkts : List EfBuf
  token : Nat

def Delivery.outcome (P : Platform) (e : Delivery) (con : Con) : Outcome :=
  ngxHttpSnoopingData P e.env con e.ctx e.side e.pkts e.token

def Traffic.record (t : Traffic) (side : Side) (con : Con) (came sent : List EfBuf) : Traffic :=
  match side with
  | .client => { t with con := con,reqIn := t.reqIn ++ came,reqOut := t.reqOut ++ sent }
  | .server => { t with con := con,resIn := t.resIn ++ came,resOut := t.resOut ++ sent }

-- No event where a request is answered on the device, or a response is dropped.
def Traffic.step (P : Platform) (t : Traffic) (e : Delivery) : Option Traffic :=
  let o := e.outcome P t.con
  if o.reply = none ∧ o.freed = [] then some (t.record e.side o.con e.pkts o.sent) else none

def Traffic.start (con : Con) (clientAddr localServerAddr : Nat) : Traffic :=
  ⟨ngxHttpSnoopingCreate con clientAddr localServerAddr,[],[],[],[]⟩

def Chain.counted (c : Chain) : Prop := c.count = c.pkts.length

structure Flow (came sent : List EfBuf) (queue : Chain) : Prop where
  order : sent ++ queue.pkts = came
  counted : queue.counted

structure Conserved (t : Traffic) : Prop where
  requests : Flow t.reqIn t.reqOut t.con.requestPktChain
  responses : Flow t.resIn t.resOut t.con.responsePktChain

def Con.queue (con : Con) : Side → Chain
  | .client => con.requestPktChain
  | .server => con.responsePktChain

def dataReaches (con : Con) (e : Delivery) : Bool :=
  match e.side with
  | .client => requestReaches (con.enqueue e.pkts) e.pkts
  | .server => responseReaches (con.enqueueResponse e.pkts) e.pkts

def Spared (t : Traffic) (e : Delivery) : Prop :=
  e.token = 0 ∨ dataReaches t.con e = false ∨ (t.con.queue e.side).count + e.pkts.length ≤ e.token

theorem getnAll {src : Chain} {token : Nat} (enough : src.count ≤ token) :
    ngxHttpEfGetn src token = (src,efBufInitChain) :=
  if_neg (Nat.not_lt_of_le enough)

theorem getnSome {src : Chain} {token : Nat} (more : token < src.count) : ngxHttpEfGetn src token =
    (⟨src.pkts.take token,token,(src.pkts.drop token).take 1⟩,
      ⟨src.pkts.drop (token + 1),src.count - token,src.surplus⟩) :=
  if_pos more

theorem getnCounted {src : Chain} (counted : src.counted) (token : Nat) : (ngxHttpEfGetn src token).1.counted := by
  rcases Nat.lt_or_ge token src.count with more | enough
  · rw [getnSome more]
    unfold Chain.counted at *
    dsimp only
    rw [List.length_take]
    omega
  · rw [getnAll enough]
    exact counted

theorem flowSplit {came sent arrived : List EfBuf} {queue : Chain} (flow : Flow came sent queue) (token : Nat) :
    let whole := efBufChain2chain queue (efBufEfbToChain arrived)
    let split_ := ngxHttpEfGetn whole token
    Flow (came ++ arrived) (sent ++ if split_.1.count ≠ 0 then split_.1.pkts else []) split_.2 ↔
      queue.count + arrived.length ≤ token := by
  obtain ⟨order,counted⟩ := flow
  unfold Chain.counted at counted
  dsimp only
  rcases Nat.lt_or_ge token (queue.count + arrived.length) with more | enough
  · rw [getnSome more]
    refine iff_of_false (fun after => ?_) (Nat.not_le_of_lt more)
    have count := after.counted
    unfold Chain.counted efBufChain2chain efBufEfbToChain at count
    dsimp only at count
    rw [List.length_drop,List.length_append] at count
    omega
  · rw [getnAll enough]
    refine iff_of_true ⟨?_,rfl⟩ enough
    have sent_ : (if queue.count + arrived.length ≠ 0 then queue.pkts ++ arrived else []) = queue.pkts ++ arrived := by
      split
      · rfl
      · rename_i none_
        have empty : (queue.pkts ++ arrived).length = 0 := by
          rw [List.length_append]
          omega
        exact (List.length_eq_zero_iff.mp empty).symm
    calc (sent ++ if queue.count + arrived.length ≠ 0 then queue.pkts ++ arrived else []) ++ []
        = sent ++ queue.pkts ++ arrived := by rw [sent_,List.append_nil,List.append_assoc]
      _ = came ++ arrived := by rw [order]

theorem flowWait {came sent arrived : List EfBuf} {queue : Chain} (flow : Flow came sent queue) :
    Flow (came ++ arrived) (sent ++ []) (efBufChain2chain queue (efBufEfbToChain arrived)) := by
  obtain ⟨order,counted⟩ := flow
  refine ⟨?_,?_⟩
  · unfold efBufChain2chain efBufEfbToChain
    rw [List.append_nil,← order,List.append_assoc]
  · unfold Chain.counted efBufChain2chain efBufEfbToChain at *
    dsimp only
    rw [counted,List.length_append]

def Delivery.whole (e : Delivery) (con : Con) : Chain := efBufChain2chain (con.queue e.side) (efBufEfbToChain e.pkts)

theorem wholeCounted {con : Con} {e : Delivery} (counted : (con.queue e.side).counted) : (e.whole con).counted :=
  (@flowWait _ [] e.pkts _ ⟨rfl,counted⟩).counted

theorem wholePkts {c : Chain} (counted : c.counted) (some_ : c.count ≠ 0) : c.pkts ≠ [] := by
  rintro none_
  rw [counted,none_] at some_
  exact some_ rfl

theorem dataQueues {con : Con} {e : Delivery} (counted : (con.queue e.side).counted)
    (pass : (e.outcome (snoopingPlatform hz addrText mimeOf) con).freed = []) :
    let o := e.outcome (snoopingPlatform hz addrText mimeOf) con
    (o.chain,o.con.queue e.side) =
      (if e.token = 0 ∨ (e.whole con).count = 0 ∨ dataReaches con e = false then (efBufInitChain,e.whole con)
        else ngxHttpEfGetn (e.whole con) e.token) ∧ o.con.queue e.side.pair = con.queue e.side.pair := by
  obtain ⟨ctx,env,side,pkts,token⟩ := e
  have whole := wholeCounted counted
  cases side with
  | client =>
    have cases_ := requestCases (snoopingPlatform hz addrText mimeOf) env con ctx pkts token
    by_cases idle : (con.enqueue pkts).requestPktChain.count = 0 ∨ token = 0
    · have same : ngxHttpSnoopingRequestParse (snoopingPlatform hz addrText mimeOf) env con ctx pkts token =
          { con := con.enqueue pkts,ctx := ctx } := if_pos idle
      dsimp only [Delivery.outcome,ngxHttpSnoopingData]
      rw [same]
      exact ⟨(if_pos (idle.elim (fun none_ => Or.inr (Or.inl none_)) Or.inl)).symm,rfl⟩
    · have live := not_or.mp idle
      obtain ⟨queue,back⟩ := requestQueues cases_ idle pass (wholePkts whole live.1)
      refine ⟨queue.trans ?_,back⟩
      cases reach : requestReaches (con.enqueue pkts) pkts with
      | true => exact (if_neg (by simpa [dataReaches,reach] using ⟨live.2,live.1⟩)).symm
      | false => exact (if_pos (by simp [dataReaches,reach])).symm
  | server =>
    have cases_ := responseCases (snoopingPlatform hz addrText mimeOf) con ctx pkts token
    by_cases idle : (con.enqueueResponse pkts).responsePktChain.count = 0 ∨ token = 0
    · have same : ngxHttpSnoopingResponseParse (snoopingPlatform hz addrText mimeOf) con ctx pkts token =
          { con := con.enqueueResponse pkts,ctx := ctx } := if_pos idle
      dsimp only [Delivery.outcome,ngxHttpSnoopingData]
      rw [same]
      exact ⟨(if_pos (idle.elim (fun none_ => Or.inr (Or.inl none_)) Or.inl)).symm,rfl⟩
    · have live := not_or.mp idle
      obtain ⟨queue,back⟩ := responseQueues cases_ idle pass (getnCounted whole token)
      refine ⟨queue.trans ?_,back⟩
      cases reach : responseReaches (con.enqueueResponse pkts) pkts with
      | true => exact (if_neg (by simpa [dataReaches,reach] using ⟨live.2,live.1⟩)).symm
      | false => exact (if_pos (by simp [dataReaches,reach])).symm

theorem flowExact {con : Con} {e : Delivery} {came sent : List EfBuf} (flow : Flow came sent (con.queue e.side))
    (pass : (e.outcome (snoopingPlatform hz addrText mimeOf) con).freed = []) :
    let o := e.outcome (snoopingPlatform hz addrText mimeOf) con
    (Flow (came ++ e.pkts) (sent ++ o.sent) (o.con.queue e.side) ↔
        e.token = 0 ∨ dataReaches con e = false ∨ (con.queue e.side).count + e.pkts.length ≤ e.token) ∧
      o.con.queue e.side.pair = con.queue e.side.pair := by
  obtain ⟨queue,other⟩ := dataQueues flow.counted pass
  refine ⟨?_,other⟩
  have chain := congrArg Prod.fst queue
  have rest := congrArg Prod.snd queue
  dsimp only at chain rest
  rw [Outcome.sent,chain,rest]
  split
  · rename_i stays
    refine iff_of_true (flowWait flow) (stays.imp_right fun late => ?_)
    rcases late with none_ | before
    · exact Or.inr (Nat.le_trans (Nat.le_of_eq none_) (Nat.zero_le _))
    · exact Or.inl before
  · rename_i splits
    rw [not_or,not_or] at splits
    obtain ⟨token,_,reach⟩ := splits
    refine (flowSplit flow e.token).trans ⟨fun all => Or.inr (Or.inr all),fun spared => ?_⟩
    exact (spared.resolve_left token).resolve_left reach

theorem trafficExact {t t' : Traffic} {e : Delivery} (good : Conserved t)
    (next : t.step (snoopingPlatform hz addrText mimeOf) e = some t') : Conserved t' ↔ Spared t e := by
  unfold Traffic.step at next
  dsimp only at next
  split at next <;> try contradiction
  rename_i pass
  cases Option.some.inj next
  obtain ⟨requests,responses⟩ := good
  unfold Spared
  cases side : e.side with
  | client =>
    have flow : Flow t.reqIn t.reqOut (t.con.queue e.side) := by rw [side]; exact requests
    obtain ⟨exact_,other⟩ := flowExact flow pass.2
    rw [side] at exact_ other
    refine Iff.trans ⟨fun after => after.requests,fun after => ⟨after,?_⟩⟩ exact_
    exact (congrArg (Flow t.resIn t.resOut) other).mpr responses
  | server =>
    have flow : Flow t.resIn t.resOut (t.con.queue e.side) := by rw [side]; exact responses
    obtain ⟨exact_,other⟩ := flowExact flow pass.2
    rw [side] at exact_ other
    refine Iff.trans ⟨fun after => after.responses,fun after => ⟨?_,after⟩⟩ exact_
    exact (congrArg (Flow t.reqIn t.reqOut) other).mpr requests

theorem splitExact (pkts : List EfBuf) (token : Nat) : ngxHttpEfGetn (efBufEfbToChain pkts) token =
    (efBufEfbToChain (pkts.take token),efBufEfbToChain (pkts.drop token)) ↔ pkts.length ≤ token := by
  rcases Nat.lt_or_ge token pkts.length with more | enough
  · refine iff_of_false (fun same => ?_) (Nat.not_le_of_lt more)
    have count := congrArg (fun split_ => split_.2.pkts.length) same
    rw [getnSome more] at count
    dsimp only [efBufEfbToChain] at count
    rw [List.length_drop,List.length_drop] at count
    omega
  · refine iff_of_true ?_ enough
    rw [getnAll enough,List.take_of_length_le enough,List.drop_of_length_le enough]
    rfl

theorem startConserved (con : Con) (clientAddr localServerAddr : Nat) :
    Conserved (.start con clientAddr localServerAddr) :=
  ⟨⟨rfl,rfl⟩,⟨rfl,rfl⟩⟩

/-- The split is right exactly when the token takes the whole chain, and packets are conserved
throughout a run exactly when each of its events stops before the split or takes the whole queue. -/
theorem packetsConservedExactly (hz : Nat) (addrText : Nat → Bytes) (mimeOf : Bytes → Bytes) (con : Con)
    (clientAddr localServerAddr : Nat) (events : List Delivery) :
    (∀ pkts token,ngxHttpEfGetn (efBufEfbToChain pkts) token =
      (efBufEfbToChain (pkts.take token),efBufEfbToChain (pkts.drop token)) ↔ pkts.length ≤ token) ∧
    (Along (Traffic.step (snoopingPlatform hz addrText mimeOf)) (fun _ _ t => Conserved t)
        (.start con clientAddr localServerAddr) events ↔
      Along (Traffic.step (snoopingPlatform hz addrText mimeOf)) (fun t e _ => Spared t e)
        (.start con clientAddr localServerAddr) events) :=
  ⟨splitExact,alongExact (I := Conserved) (fun good next => ⟨trafficExact good next,id⟩) (startConserved con _ _)⟩

def twoPackets : List Delivery :=
  [⟨ngxHttpSnoopingInit 0,⟨1,true⟩,.client,[⟨1,ascii "GET /b HTTP/1.1"⟩],1⟩,
    ⟨ngxHttpSnoopingInit 0,⟨1,true⟩,.client,[⟨2,crlf ++ ascii "Host: a" ++ crlf ++ crlf⟩],1⟩]

theorem twoPacketsEnd :
    ((run (Traffic.step (snoopingPlatform 100 (fun _ => []) (fun _ => []))) (.start {} 1 2) twoPackets).map fun t =>
      (t.reqOut.map EfBuf.id,t.con.requestPktChain)) = some ([1],⟨[],1,[]⟩) := by decide

theorem packetLost : ¬ Along (Traffic.step (snoopingPlatform 100 (fun _ => []) (fun _ => [])))
    (fun _ _ t => Conserved t) (.start {} 1 2) twoPackets := by
  intro all
  obtain ⟨t,path,same⟩ := Option.map_eq_some_iff.mp twoPacketsEnd
  have kept {s t : Traffic} {e : Delivery} (_ : Conserved s) (good : Conserved t)
      (_ : s.step (snoopingPlatform 100 (fun _ => []) (fun _ => [])) e = some t) : Conserved t := good
  have good := runInvariant (I := Conserved) kept (startConserved {} 1 2) all path
  have counted := good.requests.counted
  rw [(Prod.mk.inj same).2] at counted
  cases counted

end MipsElfExec.Snooping
