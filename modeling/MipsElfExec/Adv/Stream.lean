import MipsElfExec.Adv.Deal

/-! A playlist that is gathered: as soon as it is known where the advertisements at its beginning end, the player is
sent the playlist without them, and what else the server sends goes on as it comes. -/
namespace MipsElfExec.Adv
open CString Access

structure Led (list : Playlist) (ads : List Entry) (first : Entry) (rest : List Entry) : Prop where
  split : list.entries = ads ++ first :: rest
  some_ : ads ≠ []
  cut : ∀ entry ∈ ads,entry.ad = true
  plain : ∀ piece ∈ (first :: rest).map Entry.text ++ [list.tail],search videosOther piece = none
  late : search videosV (list.head ++ (ads.flatMap Entry.text ++ extinf)) = none

def kept (list : Playlist) (first : Entry) (rest : List Entry) : Bytes :=
  ((first :: rest).map Entry.text ++ [list.tail]).flatten

section cutting
variable {list : Playlist} {ads rest : List Entry} {first : Entry} {x r text tail : Bytes} {size m start k : Nat}

theorem strstrBefore (clean : (0 : Byte) ∉ text) (pat tail : Bytes) : strstrChecked (text ++ 0 :: tail) pat =
    .ok ((search pat text).map fun k => text.drop k ++ 0 :: tail) := by
  unfold strstrChecked strstr
  rw [if_pos (List.mem_append_right _ List.mem_cons_self),cstrTerminated text tail clean]
  cases found : search pat text with
  | none => rfl
  | some k =>
    have inside := searchBound found
    simp only [Option.map_some]
    rw [List.drop_append_of_le_length (by omega)]

theorem markBefore {more : Nat} (clean : (0 : Byte) ∉ text) (enough : text.length < more) :
    markLoop more (text ++ 0 :: tail) = .ok (behind videosOther text ++ 0 :: tail) := by
  induction more generalizing text with
  | zero => omega
  | succ more ih =>
    rw [markLoop,strstrBefore clean]
    cases found : search videosOther text with
    | none =>
      rw [behindNone found]
      rfl
    | some k =>
      have bound := searchBound found
      have some_ : 0 < videosOther.length := by decide
      change markLoop more ((text.drop k ++ 0 :: tail).drop videosOther.length) = _
      rw [List.drop_append_of_le_length (by rw [List.length_drop]; omega),List.drop_drop,
        ih (fun mem => clean (List.mem_of_mem_drop mem)) (by rw [List.length_drop]; omega)]
      obtain ⟨mark,same,other⟩ := markFirst
      rw [same] at found ⊢
      rw [← behindFirst other found]

theorem responseCut (clean : (0 : Byte) ∉ text) (room : text.length ≤ size) (marked : search videosOther text = some m)
    (first : search extinf text = some start) (second : search extinf (behind videosOther text) = some k) :
    ngxHttpMakeGetDcAmdtResponse (filled size []) (text ++ 0 :: tail) text.length =
      .ok (filled size (text.take start ++ (behind videosOther text).drop k),
        some ((text.take start ++ (behind videosOther text).drop k).length : Int)) := by
  have bound := searchBound marked
  have inside := searchBound first
  have behindBound := searchBound second
  obtain ⟨before,whole⟩ := behindSuffix videosOther text
  have sizes := congrArg List.length whole
  rw [List.length_append] at sizes
  have cleanEnd : (0 : Byte) ∉ behind videosOther text := fun mem => clean ((behindSuffix videosOther text).subset mem)
  have loops : markLoop ((text ++ 0 :: tail).length + 1) ((text.drop m ++ 0 :: tail).drop videosOther.length) =
      .ok (behind videosOther text ++ 0 :: tail) := by
    obtain ⟨mark,same,other⟩ := markFirst
    rw [List.drop_append_of_le_length (by rw [List.length_drop]; omega),List.drop_drop,
      markBefore (fun mem => clean (List.mem_of_mem_drop mem)) (by simp; omega)]
    rw [same] at marked ⊢
    rw [← behindFirst other marked]
  have place : (text.take start).length = start := by rw [List.length_take]; omega
  have offset : ((text ++ 0 :: tail).length : Int) - ((text.drop start ++ 0 :: tail).length : Int) = start := by
    simp only [List.length_append,List.length_cons,List.length_drop]
    omega
  have front : text.take start <+: text ++ 0 :: tail := (List.take_prefix start text).trans (List.prefix_append text _)
  have order : start ≤ before.length + k := searchEarlier (by rw [whole]; exact first) second
  have left : (text.length : Int) - (((text ++ 0 :: tail).length : Int) - (((behind videosOther text).drop k ++ 0 :: tail).length : Int)) =
      ((behind videosOther text).drop k).length := by
    simp only [List.length_append,List.length_cons,List.length_drop]
    omega
  have copied := blitNext (show ([] : Bytes).length ≤ size by simp) (text.take start)
  rw [List.nil_append,List.length_nil,if_pos (by omega)] at copied
  have more := blitNext (show (text.take start).length ≤ size by omega) ((behind videosOther text).drop k)
  rw [if_pos (by rw [List.length_append,List.length_drop]; omega),place] at more
  unfold ngxHttpMakeGetDcAmdtResponse
  simp only [strstrBefore clean,marked,okBind,first,Option.map_some,loops,strstrBefore cleanEnd,second,offset,
    bytesText front (by rw [place]),copied,left,bytesText (List.prefix_append _ (0 :: tail)) rfl,Int.toNat_natCast,more]
  rw [List.length_append,place]
  rfl

theorem ledText (led : Led list ads first rest) : list.text = (list.head ++ ads.flatMap Entry.text) ++ kept list first rest := by
  rw [textSplit led.split,List.append_assoc]
  rfl

theorem ledWanted (led : Led list ads first rest) : list.wanted = list.head ++ kept list first rest := by
  have plain : ∀ other ∈ first :: rest,¬other.Marked := by
    intro other mem marked
    rw [Entry.Marked,led.plain other.text (List.mem_append_left _ (List.mem_map_of_mem mem))] at marked
    cases marked
  have gone : (ads.filter fun entry => !entry.ad) = [] := by
    refine List.filter_eq_nil_iff.mpr fun entry mem => ?_
    rw [led.cut entry mem]
    decide
  rw [wantedSplit led.split plain,gone]
  rfl

theorem keptTag (list : Playlist) (first : Entry) (rest : List Entry) : extinf <+: kept list first rest :=
  ⟨first.front ++ (first.url ++ first.rest) ++ (rest.map Entry.text ++ [list.tail]).flatten,by
    simp [kept,Entry.text]⟩

theorem wordBehind (led : Led list ads first rest) (part : text ++ r = list.text) (word : search videosV text = some k) :
    ∃ x,text = (list.head ++ ads.flatMap Entry.text) ++ x ∧ x ++ r = kept list first rest ∧ extinf <+: x := by
  rw [ledText led] at part
  have whole : text <+: (list.head ++ ads.flatMap Entry.text) ++ kept list first rest := ⟨r,part⟩
  have tagged : (list.head ++ ads.flatMap Entry.text) ++ extinf <+: (list.head ++ ads.flatMap Entry.text) ++ kept list first rest :=
    List.prefix_append_right_inj _ |>.mpr (keptTag list first rest)
  rcases List.prefix_or_prefix_of_prefix whole tagged with short | ⟨y,long⟩
  · obtain ⟨more,same⟩ := short
    have late := led.late
    rw [← List.append_assoc,← same] at late
    rw [searchFront more late] at word
    cases word
  · rw [List.append_assoc] at long
    refine ⟨extinf ++ y,long.symm,?_,List.prefix_append _ _⟩
    rw [← long,List.append_assoc] at part
    exact List.append_cancel_left part

theorem cutFront (tail : Bytes) (led : Led list ads first rest) (part : text ++ r = list.text) (word : search videosV text = some k)
    (room : text.length ≤ size) : ∃ answer,
    ngxHttpMakeGetDcAmdtResponse (filled size []) (text ++ 0 :: tail) text.length =
      .ok (filled size answer,some (answer.length : Int)) ∧ answer ++ r = list.wanted := by
  obtain ⟨x,same,behindX,y,tagged⟩ := wordBehind led part word
  obtain ⟨before,last,split⟩ : ∃ before last,ads = before ++ [last] := by
    rcases List.eq_nil_or_concat ads with none_ | ⟨before,last,same⟩
    · exact absurd none_ led.some_
    · exact ⟨before,last,same.trans List.concat_eq_append⟩
  have marked := adMarked (led.cut last (split ▸ List.mem_append_right _ List.mem_cons_self))
  have joined := list.joined
  have shape : pieces list.head list.entries list.tail = (list.head :: before.map Entry.text) ++
      last.text :: ((first :: rest).map Entry.text ++ [list.tail]) := by
    simp [pieces,led.split,split]
  rw [shape] at joined
  have later := joinedDrop joined
  have someX : x ≠ [] := fun none_ => by
    rw [none_,List.append_eq_nil_iff] at tagged
    exact marksApart.2.2.1 tagged.1
  have apart : Apart 10 last.text x := by
    rcases later.1 with broken | none_ | none_
    · exact .inl broken
    · exact .inr (.inl none_)
    · have gone : x ++ r = [] := behindX.trans none_
      exact absurd (List.append_eq_nil_iff.mp gone).1 someX
  have noneX : search videosOther x = none := by
    refine searchFront r ?_
    rw [behindX]
    exact (searchPieces marksApart.1 marksApart.2.1 later.2).mpr led.plain
  have lines : text = (list.head ++ before.flatMap Entry.text) ++ (last.text ++ x) := by
    rw [same,split]
    simp
  have markedText : (search videosOther (last.text ++ x)).isSome = true := searchSome marked [] x
  have behindText : behind videosOther text = behind videosOther last.text ++ x := by
    rw [lines,behindMarked markedText]
    exact behindApart marksApart.1 marksApart.2.1 apart noneX
  have tagX : search extinf x = some 0 := tagged ▸ searchSelf extinf y
  have second : search extinf (behind videosOther text) = some (behind videosOther last.text).length := by
    rw [behindText,searchApart marksApart.2.2.1 marksApart.2.2.2 (apartSuffix apart (behindSuffix videosOther last.text)),
      entryEnds marked,tagX]
    simp
  have someText : (search videosOther text).isSome = true := by
    have found := searchSome marked (list.head ++ before.flatMap Entry.text) x
    rwa [← lines] at found
  obtain ⟨m,found⟩ := Option.isSome_iff_exists.mp someText
  have firstOf : search extinf text = some list.head.length := by
    have whole : search extinf list.text = some list.head.length := firstTag (by rw [led.split]; simp)
    cases tag : search extinf text with
    | none =>
      have inside := searchSome (show (search extinf x).isSome = true by rw [tagX]; rfl) (list.head ++ ads.flatMap Entry.text) []
      rw [List.append_nil,← same,tag] at inside
      cases inside
    | some j => rw [← whole,← part,searchExtends tag r]
  have clean : (0 : Byte) ∉ text := fun mem => list.clean (part ▸ List.mem_append_left r mem : (0 : Byte) ∈ list.text)
  refine ⟨list.head ++ x,?_,?_⟩
  · rw [responseCut clean room found firstOf second,behindText,List.drop_left]
    rw [show text.take list.head.length = list.head by rw [same,List.append_assoc,List.take_left]]
  · rw [ledWanted led,List.append_assoc,behindX]

end cutting

structure Answerer.Gathering (s : Answerer) (pair : Nat) (side : Side) (text : Bytes) : Prop where
  proxy : s.appFlags pair side = .proxyData
  buf : s.bigVfBuf = filled bigVfBufMax text
  len : s.bifVfLen = text.length
  missing : search videosV text = none

def Answerer.Streams (list : Playlist) (pair : Nat) (side : Side) (s : Answerer) (text sent : Bytes) : Prop :=
  s.Gathering pair side text ∧ sent = [] ∨
  (search videosV text).isSome = true ∧ s.appFlags pair side = .none ∧ ∀ r,text ++ r = list.text → sent ++ r = list.wanted

def Answerer.Unasked (s : Answerer) (e : Event) : Prop :=
  ∀ p ∈ e.packets.head?,8 < p.data.length → ∃ reset,s.ask (p.data ++ p.behind) = .ok (.finish reset)

def Turn.of (pair : Nat) (side : Side) : Turn → Bool
  | .packets e => e.pair == pair && e.side == side
  | _ => false

def Turn.data : Turn → Bytes
  | .packets e => pktBytes e.packets
  | _ => []

def arrived (pair : Nat) (side : Side) (ts : List Turn) : Bytes := (ts.filter (Turn.of pair side)).flatMap Turn.data

def sentFor (pair : Nat) (side : Side) : List Turn → List Sent → Bytes
  | t :: ts,x :: xs => if t.of pair side then x.pair ++ sentFor pair side ts xs else sentFor pair side ts xs
  | _,_ => []

def Answerer.beside (pair : Nat) (side : Side) : Answerer → List Turn → Prop
  | _,[] => True
  | s,t :: ts => (t.of pair side = true ∨ ∃ e r,t = .packets e ∧ e.pair ≠ pair ∧ ¬t.gathers s ∧ s.turn t = .ok r) ∧
    ∀ s' x,s.turn t = .ok (s',x) → s'.beside pair side ts

section streaming
variable {list : Playlist} {ads rest : List Entry} {first : Entry} {s s' u : Answerer} {e : Event} {t : Turn} {ts : List Turn} {x : Sent}
variable {pair : Nat} {side : Side} {text sent r : Bytes}

theorem askAlike (same : s.advStr = u.advStr) : s.ask = u.ask := by
  unfold Answerer.ask Answerer.advSet Answerer.pattern
  rw [same]

theorem unaskedAlike (same : s.advStr = u.advStr) (unasked : s.Unasked e) : u.Unasked e := by
  unfold Answerer.Unasked
  rw [← askAlike same]
  exact unasked

theorem gatherStreams (led : Led list ads first rest) (room : list.text.length < bigVfBufMax) (ps : List Pkt)
    (gathering : s.Gathering pair side text) (part : text ++ pktBytes ps ++ r = list.text) :
    ∃ s' out,s.gather pair side ps = .ok (s',⟨[],out⟩) ∧ s'.advStr = s.advStr ∧
      Answerer.Streams list pair side s' (text ++ pktBytes ps) out := by
  induction ps generalizing s text with
  | nil =>
    refine ⟨s,[],rfl,rfl,.inl ⟨?_,rfl⟩⟩
    rw [show text ++ pktBytes [] = text from List.append_nil text]
    exact gathering
  | cons p ps ih =>
    have shape : text ++ pktBytes (p :: ps) = (text ++ p.data) ++ pktBytes ps := (List.append_assoc _ _ _).symm
    rw [shape] at part ⊢
    have sizes := congrArg List.length part
    simp only [List.length_append] at sizes
    have fits : (text ++ p.data).length < bigVfBufMax := by
      rw [List.length_append]
      omega
    have stored := blitNext (show text.length ≤ bigVfBufMax by omega) p.data
    rw [if_pos fits.le] at stored
    have appended : s.append p.data =
        .ok { s with bigVfBuf := filled bigVfBufMax (text ++ p.data),bifVfLen := ((text ++ p.data).length : Nat) } := by
      rw [Answerer.append,gathering.len,if_neg (by omega),gathering.buf,Int.toNat_natCast,stored,List.length_append]
      rfl
    have clean : (0 : Byte) ∉ text ++ p.data := fun mem =>
      list.clean (part ▸ List.mem_append_left r (List.mem_append_left _ mem) : (0 : Byte) ∈ list.text)
    obtain ⟨zeros,closed⟩ := filledNul fits
    have seen := strstrBefore clean videosV zeros
    rw [← closed] at seen
    rw [Answerer.gather,appended,okBind]
    dsimp only
    rw [seen]
    cases word : search videosV (text ++ p.data) with
    | none => exact ih ⟨gathering.proxy,rfl,rfl,word⟩ part
    | some k =>
      obtain ⟨answer,made,whole⟩ := cutFront zeros led ((List.append_assoc _ _ _).symm.trans part) word fits.le
      rw [← closed] at made
      have read : bytesAt (filled bigVfBufMax answer) answer.length = .ok answer := bytesText (List.prefix_append _ _) rfl
      simp only [Option.map_some,okBind,Int.toNat_natCast,made,read]
      refine ⟨_,_,rfl,rfl,.inr ⟨?_,?_,fun r' part' => ?_⟩⟩
      · rw [searchExtends word]
        rfl
      · cases side <;> simp [Answerer.setFlags,Side.other]
      · have same : r' = r := List.append_cancel_left (part'.trans part.symm)
        rw [same,List.append_assoc]
        exact whole

theorem forwardStreams (plain : s.appFlags e.pair e.side = .none) (unasked : s.Unasked e) :
    ∃ s',ngxHttpVfDeal1 s e = .ok (s',⟨[],pktBytes e.packets⟩) ∧ s'.advStr = s.advStr ∧ s'.appFlags e.pair e.side = .none := by
  unfold ngxHttpVfDeal1
  cases packets : e.packets with
  | nil => exact ⟨s,rfl,rfl,plain⟩
  | cons p ps =>
    have asked : ∃ reset,(if 8 < p.data.length then s.ask (p.data ++ p.behind) else pure (.finish false)) = .ok (.finish reset) := by
      split
      · rename_i long
        exact unasked p (by rw [packets]; rfl) long
      · exact ⟨false,rfl⟩
    obtain ⟨reset,asked⟩ := asked
    dsimp only
    rw [if_neg (by rw [plain]; decide),asked]
    cases reset with
    | true =>
      refine ⟨(s.setFlags e.pair e.side .none).setFlags e.pair e.side.other .none,?_,rfl,?_⟩
      · have after : ((s.setFlags e.pair e.side .none).setFlags e.pair e.side.other .none).appFlags e.pair e.side = .none := by
          cases e.side <;> simp [Answerer.setFlags,Side.other]
        simp only [okBind,if_true,after]
        rfl
      · cases e.side <;> simp [Answerer.setFlags,Side.other]
    | false =>
      refine ⟨s,?_,rfl,plain⟩
      simp only [okBind,Bool.false_eq_true,if_false,plain]
      rfl

theorem ownStreams (led : Led list ads first rest) (room : list.text.length < bigVfBufMax) (unasked : s.Unasked e)
    (own : e.pair = pair ∧ e.side = side) (streams : Answerer.Streams list pair side s text sent)
    (part : text ++ pktBytes e.packets ++ r = list.text) :
    ∃ s' out,ngxHttpVfDeal1 s e = .ok (s',⟨[],out⟩) ∧ s'.advStr = s.advStr ∧
      Answerer.Streams list pair side s' (text ++ pktBytes e.packets) (sent ++ out) := by
  obtain ⟨rfl,rfl⟩ := own
  rcases streams with ⟨gathering,rfl⟩ | ⟨word,plain,whole⟩
  · cases packets : e.packets with
    | nil =>
      refine ⟨s,[],by rw [ngxHttpVfDeal1,packets],rfl,.inl ⟨?_,rfl⟩⟩
      rw [show text ++ pktBytes [] = text from List.append_nil text]
      exact gathering
    | cons p ps =>
      rw [packets] at part
      have step : ngxHttpVfDeal1 s e = s.gather e.pair e.side (p :: ps) := by
        rw [ngxHttpVfDeal1,packets]
        exact if_pos gathering.proxy
      rw [step]
      exact gatherStreams led room (p :: ps) gathering part
  · obtain ⟨s',run,same,after⟩ := forwardStreams plain unasked
    refine ⟨s',_,run,same,.inr ⟨?_,after,fun r' part' => ?_⟩⟩
    · have kept := searchSome word [] (pktBytes e.packets)
      exact kept
    · rw [List.append_assoc] at part' ⊢
      exact whole _ part'

theorem otherStreams (apart : e.pair ≠ pair) (calm : ¬(Turn.packets e).gathers s) (run : ngxHttpVfDeal1 s e = .ok (s',x))
    (streams : Answerer.Streams list pair side s text sent) : Answerer.Streams list pair side s' text sent ∧ s'.advStr = s.advStr := by
  obtain ⟨alike,adv,buf,len,-⟩ := dealCases run calm
  obtain ⟨flags,whole,same⟩ := alike pair (Ne.symm apart)
  have flag : s'.appFlags pair side = s.appFlags pair side := by
    rw [whole]
    exact same side
  refine ⟨?_,adv⟩
  rcases streams with ⟨gathering,none_⟩ | ⟨word,plain,wanted⟩
  · exact .inl ⟨⟨flag.trans gathering.proxy,buf.trans gathering.buf,len.trans gathering.len,gathering.missing⟩,none_⟩
  · exact .inr ⟨word,flag.trans plain,wanted⟩

theorem runStreams (led : Led list ads first rest) (room : list.text.length < bigVfBufMax) (beside : s.beside pair side ts)
    (unasked : ∀ e,Turn.packets e ∈ ts → e.pair = pair → s.Unasked e) (streams : Answerer.Streams list pair side s text sent)
    (part : text ++ arrived pair side ts ++ r = list.text) : ∃ s' xs,s.turns ts = .ok (s',xs) ∧
      Answerer.Streams list pair side s' (text ++ arrived pair side ts) (sent ++ sentFor pair side ts xs) := by
  induction ts generalizing s text sent with
  | nil =>
    refine ⟨s,[],rfl,?_⟩
    rw [show arrived pair side [] = [] from rfl,show sentFor pair side [] [] = [] from rfl,List.append_nil,List.append_nil]
    exact streams
  | cons t ts ih =>
    obtain ⟨which,later⟩ := beside
    cases own : t.of pair side with
    | true =>
      cases t with
      | packets e =>
        obtain ⟨samePair,sameSide⟩ := Bool.and_eq_true_iff.mp own
        have samePair := beq_iff_eq.mp samePair
        have sameSide := beq_iff_eq.mp sameSide
        have split : arrived pair side (.packets e :: ts) = pktBytes e.packets ++ arrived pair side ts := by
          rw [arrived,List.filter_cons_of_pos own]
          rfl
        rw [split,← List.append_assoc] at part ⊢
        obtain ⟨s₁,out,run,adv,streams⟩ := ownStreams led room (unasked e List.mem_cons_self samePair) ⟨samePair,sameSide⟩ streams
          ((List.append_assoc _ _ _).symm.trans part)
        obtain ⟨s',xs,ran,streams⟩ := ih (later s₁ _ run)
          (fun e mem same => unaskedAlike adv.symm (unasked e (List.mem_cons_of_mem _ mem) same)) streams part
        refine ⟨s',⟨[],out⟩ :: xs,?_,?_⟩
        · rw [Answerer.turns,show s.turn (.packets e) = .ok (s₁,⟨[],out⟩) from run]
          simp only [okBind,ran]
          rfl
        · rw [sentFor,own,if_pos rfl,← List.append_assoc]
          exact streams
      | makeVfResBuf result => cases own
      | setAdvStr adv => cases own
    | false =>
      rcases which with same | ⟨e,⟨s₁,x⟩,rfl,apart,calm,run⟩
      · rw [own] at same
        cases same
      · have split : arrived pair side (.packets e :: ts) = arrived pair side ts := by
          rw [arrived,List.filter_cons_of_neg (by rw [own]; decide)]
          rfl
        rw [split] at part ⊢
        obtain ⟨streams,adv⟩ := otherStreams apart calm run streams
        obtain ⟨s',xs,ran,streams⟩ := ih (later s₁ x run)
          (fun e mem same => unaskedAlike adv.symm (unasked e (List.mem_cons_of_mem _ mem) same)) streams part
        refine ⟨s',x :: xs,?_,?_⟩
        · rw [Answerer.turns,run]
          simp only [okBind,ran]
          rfl
        · rw [sentFor,own]
          exact streams

def cutPkt (start len : Nat) : Pkt := ⟨(adFirst.text.drop start).take len,[0]⟩

def listTurns : List Turn := [shortTurn,.packets ⟨0,.server,false,[cutPkt 0 40],⟨[],[]⟩⟩,
  .packets ⟨0,.server,false,[cutPkt 40 40,cutPkt 80 100],⟨[],[]⟩⟩]

def proxied : Answerer := ({} : Answerer).setFlags 0 .server .proxyData

theorem adFirstLed : Led adFirst [adEntry] firstEntry [secondEntry] :=
  ⟨rfl,by simp,by decide,by decide,by decide⟩

theorem proxiedGathering : proxied.Gathering 0 .server [] := by
  refine ⟨rfl,?_,rfl,by decide⟩
  exact (List.nil_append _).symm

theorem proxiedUnasked : ∀ e,Turn.packets e ∈ listTurns → e.pair = 0 → proxied.Unasked e := by
  have first : 8 < (cutPkt 0 40).data.length → ∃ reset,proxied.ask ((cutPkt 0 40).data ++ (cutPkt 0 40).behind) = .ok (.finish reset) :=
    fun _ => ⟨false,by decide⟩
  have second : 8 < (cutPkt 40 40).data.length → ∃ reset,proxied.ask ((cutPkt 40 40).data ++ (cutPkt 40 40).behind) = .ok (.finish reset) :=
    fun _ => ⟨false,by decide⟩
  intro e mem same p inside
  rcases List.mem_cons.mp mem with short | mem
  · cases short
    cases same
  rcases List.mem_cons.mp mem with own | mem
  · cases own
    cases inside
    exact first
  · cases List.mem_singleton.mp mem
    cases inside
    exact second

theorem proxiedBeside : proxied.beside 0 .server listTurns :=
  ⟨.inr ⟨_,(proxied,⟨[],ascii "abc"⟩),rfl,by decide,fun gathers => (by cases gathers.2),rfl⟩,
    fun _ _ _ => ⟨.inl rfl,fun _ _ _ => ⟨.inl rfl,fun _ _ _ => trivial⟩⟩⟩

/-- In whatever pieces the playlist comes, between packets of connections that gather nothing: nothing is sent until the word
is there, and from then on what was sent with what is still to come is the playlist without the advertisements. -/
theorem playlistStreams (led : Led list ads first rest) (room : list.text.length < bigVfBufMax) (gathering : s.Gathering pair side text)
    (beside : s.beside pair side ts) (unasked : ∀ e,Turn.packets e ∈ ts → e.pair = pair → s.Unasked e)
    (part : text ++ arrived pair side ts ++ r = list.text) : ∃ s' xs,s.turns ts = .ok (s',xs) ∧
      if (search videosV (text ++ arrived pair side ts)).isSome then sentFor pair side ts xs ++ r = list.wanted
      else sentFor pair side ts xs = [] := by
  obtain ⟨s',xs,ran,streams⟩ := runStreams led room beside unasked (.inl ⟨gathering,rfl⟩) part
  refine ⟨s',xs,ran,?_⟩
  rcases streams with ⟨held,none_⟩ | ⟨word,-,whole⟩
  · rw [held.missing]
    exact none_
  · rw [if_pos word]
    exact whole r part

theorem playlistStreams_three : ∃ s' xs,proxied.turns listTurns = .ok (s',xs) ∧
    if (search videosV ([] ++ arrived 0 .server listTurns)).isSome then sentFor 0 .server listTurns xs ++ [] = adFirst.wanted
    else sentFor 0 .server listTurns xs = [] :=
  playlistStreams adFirstLed (by decide +kernel) proxiedGathering proxiedBeside proxiedUnasked
    (show ([] : Bytes) ++ arrived 0 .server listTurns ++ [] = adFirst.text by decide)

end streaming

end MipsElfExec.Adv
