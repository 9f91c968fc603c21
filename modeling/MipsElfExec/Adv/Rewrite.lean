import MipsElfExec.Adv.Isolation

/-! One marked request behind the advertisement filter: its client gets the answer with the advertisement cut
out, however the answer is split into packets. -/
namespace MipsElfExec.Adv
open CString Run

def span (s : Bytes) : Option (Nat × Nat) :=
  (search adMark s).bind fun p => (search lineMark (s.drop p)).map fun n => (p,n)

def cutAd (s : Bytes) : Bytes :=
  match span s with
  | some (p,n) => if validAdStrLen < n then s.take p ++ text adStr ++ s.drop (p + n) else s
  | none => s

inductive Answers (c : Nat) : List Event → Prop where
  | last {e : Event} (pair : e.pair = c) (side : e.side = .server) (shut : e.shutdown = true) : Answers c [e]
  | more {e : Event} {es : List Event} (pair : e.pair = c) (side : e.side = .server) (going : e.shutdown = false)
    (rest : Answers c es) : Answers c (e :: es)

def stream (events : List Event) : Bytes := events.flatMap fun e => pktBytes e.packets

section spans
variable {s t : Bytes} {p n : Nat}

theorem spanBound (found : span s = some (p,n)) : p + n ≤ s.length := by
  obtain ⟨q,mark_,rest⟩ := Option.bind_eq_some_iff.mp found
  obtain ⟨m,line,same⟩ := Option.map_eq_some_iff.mp rest
  cases same
  have first := searchBound mark_
  have second := searchBound line
  rw [List.length_drop] at second
  omega

theorem spanExtends (found : span s = some (p,n)) (t : Bytes) : span (s ++ t) = some (p,n) := by
  obtain ⟨q,mark_,rest⟩ := Option.bind_eq_some_iff.mp found
  obtain ⟨m,line,same⟩ := Option.map_eq_some_iff.mp rest
  cases same
  have inside : p ≤ s.length := Nat.le_of_add_right_le (searchBound mark_)
  unfold span
  rw [searchExtends mark_ t,Option.bind_some,List.drop_append_of_le_length inside,searchExtends line t,Option.map_some]

theorem cutExtends (found : span s = some (p,n)) (t : Bytes) : cutAd (s ++ t) = cutAd s ++ t := by
  have bound := spanBound found
  unfold cutAd
  rw [spanExtends found t,found]
  dsimp only
  split
  · rw [List.take_append_of_le_length (by omega),List.drop_append_of_le_length bound]
    simp
  · rfl

theorem cutMissing (missing : span s = none) : cutAd s = s := by
  unfold cutAd
  rw [missing]

theorem textAppend (a b : List Cell) : text (a ++ b) = text a ++ text b := List.map_append

theorem adSpanText {cells : List Cell} (clean : (0 : Byte) ∉ text cells) : adSpan cells = span (text cells) := by
  have tail (p : Nat) : (0 : Byte) ∉ (text cells).drop p := fun mem => clean (List.mem_of_mem_drop mem)
  unfold adSpan span strstr
  rw [cstrOfNoNul clean]
  congr 1
  funext p
  rw [cstrOfNoNul (tail p)]

end spans

section steps
variable {s t : Relay} {e : Event} {c : Nat}

theorem stepAfter (next : s.step e = some t) : t = s.after e (ngxHttpVfDeal s.toAdFilter e (s.marked e)) :=
  (Option.some.inj next).symm

theorem markedText (s : Relay) (e : Event) : text (s.marked e).flatten = pktBytes e.packets := by
  unfold Relay.marked
  rw [markAllFlat,markText]

theorem afterDelivered (s : Relay) (out : AdFilter × List Cell) (pair : e.pair = c) (side : e.side = .server) :
    text ((s.after e out).delivered c) = text (s.delivered c) ++ text out.2 := by
  have same : (s.after e out).delivered c = s.delivered c ++ out.2 := if_pos ⟨pair.symm,side⟩
  rw [same,textAppend]

theorem plainStep (pair : e.pair = c) (side : e.side = .server) (plain : s.appFlags c .server = .none)
    (next : s.step e = some t) : t.appFlags c .server = .none ∧ t.wild = s.wild ∧
      text (t.delivered c) = text (s.delivered c) ++ pktBytes e.packets := by
  have off : s.appFlags e.pair e.side = .none := by rw [pair,side]; exact plain
  have away : ¬(c = e.pair ∧ Side.server = e.side.other) := fun both => by simp [side,Side.other] at both
  rw [stepAfter next]
  unfold ngxHttpVfDeal
  split
  · rename_i quiet
    rw [quietSame s quiet.1,quiet.1]
    exact ⟨plain,rfl,(List.append_nil _).symm⟩
  · rw [if_neg (by rw [off]; exact nofun)]
    unfold vfForward
    split
    · rw [afterDelivered s _ pair side,markedText]
      exact ⟨(if_neg away).trans plain,rfl,rfl⟩
    · rw [if_neg (by rw [off]; exact nofun),afterDelivered s _ pair side,markedText]
      exact ⟨plain,rfl,rfl⟩

inductive Gathering (c : Nat) (s : Relay) (e : Event) (whole : Bytes) (t : Relay) : Prop where
  | done {p n} (found : span whole = some (p,n)) (plain : t.appFlags c .server = .none)
    (sent : text (t.delivered c) = text (s.delivered c) ++ cutAd whole)
  | ended (missing : span whole = none) (shut : e.shutdown = true)
    (sent : text (t.delivered c) = text (s.delivered c) ++ whole)
  | going (missing : span whole = none) (open_ : e.shutdown = false) (proxy : t.appFlags c .server = .proxyData)
    (size : t.bifVfLen = t.bigVfBuf.length) (held : text t.bigVfBuf = whole)
    (silent : text (t.delivered c) = text (s.delivered c))

theorem appendEnd {f : AdFilter} (size : f.bifVfLen = f.bigVfBuf.length) (cells : List Cell) :
    (f.append cells).bigVfBuf = f.bigVfBuf ++ cells ∧ (f.append cells).held = f.bigVfBuf ++ cells := by
  have whole : f.bigVfBuf.take f.bifVfLen = f.bigVfBuf := by rw [size,List.take_length]
  constructor
  · have beyond : f.bigVfBuf.drop (f.bifVfLen + cells.length) = [] :=
      List.drop_eq_nil_of_le (by rw [size]; exact Nat.le_add_right _ _)
    simp only [AdFilter.append,put,whole,beyond,List.append_nil]
  · rw [appendHeld size.le,AdFilter.held,whole]

theorem cutText {f : AdFilter} {p n : Nat} {whole : Bytes} (fits : f.bifVfLen ≤ f.bigVfBuf.length)
    (held : text f.held = whole) (found : span whole = some (p,n)) (long : validAdStrLen < n) :
    text (f.cut p n).held = cutAd whole ∧ (f.cut p n).wild = f.wild := by
  have valid : validAdStrLen = 128 := rfl
  have size : whole.length = f.bifVfLen := by
    rw [← held,text,List.length_map,AdFilter.held,List.length_take_of_le fits]
  have inside : p + n ≤ f.bifVfLen := by rw [← size]; exact spanBound found
  constructor
  · have cut : cutAd whole = whole.take p ++ text adStr ++ whole.drop (p + n) := by
      unfold cutAd
      rw [found]
      exact if_pos long
    rw [cutHeld fits (by omega) inside,textAppend,textAppend,cut,← held]
    simp only [text,List.map_take,List.map_drop]
  · have calm : ¬f.bifVfLen < p + n := Nat.not_lt_of_le inside
    change (f.wild || decide (f.bifVfLen < p + n)) = f.wild
    rw [decide_eq_false calm,Bool.or_false]

theorem gatherStep (pair : e.pair = c) (side : e.side = .server) (proxy : s.appFlags c .server = .proxyData)
    (size : s.bifVfLen = s.bigVfBuf.length) (waiting : span (text s.bigVfBuf) = none)
    (clean : (0 : Byte) ∉ text s.bigVfBuf ++ pktBytes e.packets)
    (room : (text s.bigVfBuf ++ pktBytes e.packets).length < bigVfBufMax) (next : s.step e = some t) :
    t.wild = s.wild ∧ Gathering c s e (text s.bigVfBuf ++ pktBytes e.packets) t := by
  have mine : s.appFlags e.pair e.side = .proxyData := by rw [pair,side]; exact proxy
  obtain ⟨buffer,held⟩ := appendEnd size (s.marked e).flatten
  have same : text (s.toAdFilter.append (s.marked e).flatten).held = text s.bigVfBuf ++ pktBytes e.packets := by
    rw [held,textAppend,markedText]
  have level : (s.toAdFilter.append (s.marked e).flatten).bifVfLen =
      (s.toAdFilter.append (s.marked e).flatten).bigVfBuf.length := by
    rw [buffer,List.length_append,← size]
    rfl
  have long : (s.toAdFilter.append (s.marked e).flatten).bifVfLen = (text s.bigVfBuf ++ pktBytes e.packets).length := by
    rw [← same,text,List.length_map,AdFilter.held,level,List.take_length]
  have calm : (s.toAdFilter.append (s.marked e).flatten).wild = s.wild := by
    change (s.wild || decide (bigVfBufMax < (s.toAdFilter.append (s.marked e).flatten).bifVfLen)) = s.wild
    rw [long,decide_eq_false (Nat.not_lt_of_le room.le),Bool.or_false]
  have seen : adSpan (s.toAdFilter.append (s.marked e).flatten).bigVfBuf =
      span (text s.bigVfBuf ++ pktBytes e.packets) := by
    have bytes_ : text (s.bigVfBuf ++ (s.marked e).flatten) = text s.bigVfBuf ++ pktBytes e.packets := by
      rw [textAppend,markedText]
    rw [buffer,adSpanText (by rw [bytes_]; exact clean),bytes_]
  rw [stepAfter next]
  unfold ngxHttpVfDeal
  split
  · rename_i quiet
    rw [quietSame s quiet.1,quiet.1]
    have all : text s.bigVfBuf ++ pktBytes [] = text s.bigVfBuf := List.append_nil _
    rw [all]
    exact ⟨rfl,.going waiting quiet.2 proxy size rfl rfl⟩
  · unfold vfProxy
    rw [appendAll size.le (by rw [size]; simp [text] at room; omega)]
    dsimp only
    rw [seen]
    have flag (f : AdFilter) : (f.setFlags e.pair e.side .none).appFlags c .server = .none :=
      if_pos ⟨pair.symm,side.symm⟩
    cases found : span (text s.bigVfBuf ++ pktBytes e.packets) with
    | some place =>
      obtain ⟨p,n⟩ := place
      dsimp only
      split
      · rename_i valid
        obtain ⟨sent,still⟩ := cutText level.le same found valid
        refine ⟨still.trans calm,.done found (flag _) ?_⟩
        rw [afterDelivered s _ pair side]
        exact congrArg _ sent
      · rename_i short
        refine ⟨calm,.done found (flag _) ?_⟩
        have uncut : cutAd (text s.bigVfBuf ++ pktBytes e.packets) = text s.bigVfBuf ++ pktBytes e.packets := by
          unfold cutAd
          rw [found]
          exact if_neg short
        rw [afterDelivered s _ pair side,uncut]
        exact congrArg _ same
    | none =>
      dsimp only
      cases shut : e.shutdown with
      | false =>
        rw [if_neg (by simp)]
        refine ⟨calm,.going found shut proxy level ?_ ?_⟩
        · rw [← same,held]
          exact congrArg text buffer
        · rw [afterDelivered s _ pair side]
          exact List.append_nil _
      | true =>
        split
        · refine ⟨calm,.ended found shut ?_⟩
          rw [afterDelivered s _ pair side]
          exact congrArg _ same
        · rename_i empty
          have nothing : text s.bigVfBuf ++ pktBytes e.packets = [] :=
            List.length_eq_zero_iff.mp (long.symm.trans (by simpa using empty))
          refine ⟨calm,.ended found shut ?_⟩
          rw [afterDelivered s _ pair side,nothing]
          rfl

end steps

section runs
variable {s : Relay} {c : Nat} {events : List Event}

theorem plainRun (answers : Answers c events) (plain : s.appFlags c .server = .none) :
    ∃ t,run Relay.step s events = some t ∧ t.wild = s.wild ∧
      text (t.delivered c) = text (s.delivered c) ++ stream events := by
  induction answers generalizing s with
  | @last e pair side shut =>
    obtain ⟨t,next⟩ : ∃ t,s.step e = some t := ⟨_,rfl⟩
    obtain ⟨_,calm,sent⟩ := plainStep pair side plain next
    refine ⟨t,by simp [run,next],calm,?_⟩
    rw [sent,stream,List.flatMap_singleton]
  | @more e es pair side going rest ih =>
    obtain ⟨u,next⟩ : ∃ u,s.step e = some u := ⟨_,rfl⟩
    obtain ⟨still,calm,sent⟩ := plainStep pair side plain next
    obtain ⟨t,path,calmer,all⟩ := ih still
    refine ⟨t,by rw [run,next]; exact path,calmer.trans calm,?_⟩
    rw [all,sent,stream,stream,List.flatMap_cons,List.append_assoc]

theorem gatherRun (answers : Answers c events) (proxy : s.appFlags c .server = .proxyData)
    (size : s.bifVfLen = s.bigVfBuf.length) (waiting : span (text s.bigVfBuf) = none)
    (clean : (0 : Byte) ∉ text s.bigVfBuf ++ stream events)
    (room : (text s.bigVfBuf ++ stream events).length < bigVfBufMax) :
    ∃ t,run Relay.step s events = some t ∧ t.wild = s.wild ∧
      text (t.delivered c) = text (s.delivered c) ++ cutAd (text s.bigVfBuf ++ stream events) := by
  induction answers generalizing s with
  | @last e pair side shut =>
    obtain ⟨t,next⟩ : ∃ t,s.step e = some t := ⟨_,rfl⟩
    have only : stream [e] = pktBytes e.packets := List.flatMap_singleton ..
    rw [only] at clean room ⊢
    obtain ⟨calm,gathering⟩ := gatherStep pair side proxy size waiting clean room next
    refine ⟨t,by simp [run,next],calm,?_⟩
    cases gathering with
    | done found plain sent => exact sent
    | ended missing shut sent => rw [sent,cutMissing missing]
    | going missing open_ => exact absurd (open_.symm.trans shut) (by simp)
  | @more e es pair side going rest ih =>
    obtain ⟨u,next⟩ : ∃ u,s.step e = some u := ⟨_,rfl⟩
    have parts : text s.bigVfBuf ++ stream (e :: es) = text s.bigVfBuf ++ pktBytes e.packets ++ stream es := by
      rw [stream,List.flatMap_cons,List.append_assoc]
      rfl
    rw [parts] at clean room ⊢
    have clean_ : (0 : Byte) ∉ text s.bigVfBuf ++ pktBytes e.packets := fun mem => clean (List.mem_append_left _ mem)
    have room_ : (text s.bigVfBuf ++ pktBytes e.packets).length < bigVfBufMax := by
      have total : (text s.bigVfBuf ++ pktBytes e.packets ++ stream es).length =
          (text s.bigVfBuf ++ pktBytes e.packets).length + (stream es).length := List.length_append
      omega
    obtain ⟨calm,gathering⟩ := gatherStep pair side proxy size waiting clean_ room_ next
    cases gathering with
    | done found plain sent =>
      obtain ⟨t,path,calmer,all⟩ := plainRun rest plain
      refine ⟨t,by rw [run,next]; exact path,calmer.trans calm,?_⟩
      rw [all,sent,cutExtends found,List.append_assoc]
    | ended missing shut => exact absurd (shut.symm.trans going) (by simp)
    | going missing open_ still level held silent =>
      rw [← held] at clean room missing ⊢
      obtain ⟨t,path,calmer,all⟩ := ih still level missing clean room
      refine ⟨t,by rw [run,next]; exact path,calmer.trans calm,?_⟩
      rw [all,silent]

theorem emptySpan : span [] = none := by decide

theorem requestStep {advStr : Bytes} {p : Pkt} {e : Event} (adv : s.advStr = advStr) (pair : e.pair = c)
    (side : e.side = .client) (packets : e.packets = [p]) (long : 8 < p.data.length)
    (marked : (strstr p.data advStr).isSome) (outside : s.appFlags c .client ≠ .proxyData) :
    ∃ t,s.step e = some t ∧ t.appFlags c .server = .proxyData ∧ t.bifVfLen = 0 ∧ t.bigVfBuf = [] ∧
      t.wild = s.wild ∧ t.delivered c = s.delivered c := by
  have matches_ : vfMatches s.toAdFilter e = true := by
    obtain ⟨n,found⟩ := Option.isSome_iff_exists.mp marked
    obtain ⟨rest,same⟩ := cstrAppendPrefix p.data p.behind
    have wider : strstr (p.data ++ p.behind) s.advStr = some n := by
      rw [adv,strstr,← same]
      exact searchExtends found rest
    simp [vfMatches,packets,long,wider]
  have off : s.appFlags e.pair e.side ≠ .proxyData := by rw [pair,side]; exact outside
  have deal : ngxHttpVfDeal s.toAdFilter e (s.marked e) =
      ({ s.toAdFilter with bigVfBuf := [],bifVfLen := 0 }.setFlags c .server .proxyData,(s.marked e).flatten) := by
    unfold ngxHttpVfDeal vfForward
    rw [if_neg (by simp [packets]),if_neg off,if_pos matches_,pair,side]
    rfl
  have silent : ¬(c = e.pair ∧ e.side = .server) := fun both => by simp [side] at both
  refine ⟨s.after e (ngxHttpVfDeal s.toAdFilter e (s.marked e)),rfl,?_⟩
  rw [deal]
  exact ⟨if_pos ⟨rfl,rfl⟩,rfl,rfl,rfl,if_neg silent⟩

/-- What the client of a marked request gets is the server's answer with the advertisement cut out of it, in whatever
packets the answer came. -/
theorem answerCut {request : Event} {p : Pkt} (pair : request.pair = c) (side : request.side = .client)
    (packets : request.packets = [p]) (long : 8 < p.data.length) (marked : (strstr p.data s.advStr).isSome)
    (outside : s.appFlags c .client ≠ .proxyData) (answers : Answers c events) (clean : (0 : Byte) ∉ stream events)
    (room : (stream events).length < bigVfBufMax) :
    ∃ t,run Relay.step s (request :: events) = some t ∧ t.wild = s.wild ∧
      text (t.delivered c) = text (s.delivered c) ++ cutAd (stream events) := by
  obtain ⟨u,next,proxy,empty,buffer,calm,silent⟩ := requestStep rfl pair side packets long marked outside
  have none_ : text u.bigVfBuf = [] := by rw [buffer]; rfl
  obtain ⟨t,path,calmer,all⟩ := gatherRun answers proxy (by rw [empty,buffer]; rfl) (by rw [none_]; exact emptySpan)
    (by rw [none_]; exact clean) (by rw [none_]; exact room)
  refine ⟨t,by rw [run,next]; exact path,calmer.trans calm,?_⟩
  rw [all,none_,silent,List.nil_append]

end runs

def filler : String := String.ofList (List.replicate 130 'x')

def splitAnswer : List Event :=
  [adAnswer 0 false "\x7bad_st",adAnswer 0 false ("r" ++ filler ++ "\\"),adAnswer 0 false "n\x7d",
    ⟨0,.server,true,[],⟨[],[]⟩⟩]

theorem splitAnswers : Answers 0 splitAnswer :=
  .more rfl rfl rfl (.more rfl rfl rfl (.more rfl rfl rfl (.last rfl rfl rfl)))

theorem splitAnswerCut : ∃ t,run Relay.step (.start (ascii "/adv")) (adRequest 0 :: splitAnswer) = some t ∧
    t.wild = false ∧ text (t.delivered 0) = text ((Relay.start (ascii "/adv")).delivered 0) ++ cutAd (stream splitAnswer) :=
  answerCut (c := 0) (s := .start (ascii "/adv")) (p := ⟨ascii "GET /adv/1",[]⟩) rfl rfl rfl (by decide)
    (by decide +kernel) (by decide) splitAnswers (by decide +kernel) (by decide +kernel)

def shortRequest : Event := ⟨0,.client,false,[⟨ascii "/adv",[]⟩],⟨[],[]⟩⟩
def wholeAnswer : Event := adAnswer 0 true ("ad_str" ++ filler ++ "\\n")

theorem shortUncut : Answers 0 [wholeAnswer] ∧ (strstr (ascii "/adv") (ascii "/adv")).isSome ∧
    (0 : Byte) ∉ stream [wholeAnswer] ∧
    ∃ t,run Relay.step (.start (ascii "/adv")) [shortRequest,wholeAnswer] = some t ∧
      text (t.delivered 0) = stream [wholeAnswer] ∧ text (t.delivered 0) ≠ cutAd (stream [wholeAnswer]) :=
  ⟨.last rfl rfl rfl,by decide +kernel,by decide +kernel,_,rfl,by decide +kernel,by decide +kernel⟩

end MipsElfExec.Adv
