import MipsElfExec.Adv.Filter

/-! Several connections behind one advertisement filter. -/
namespace MipsElfExec.Adv
open CString Run

theorem indicesAppend (a b : List Cell) : indices (a ++ b) = indices a ++ indices b := List.filterMap_append

theorem adStrIndices : indices adStr = [] := rfl

section marks
variable {pair k : Nat} {side : Side} {bytes : Bytes}

theorem markIndices : indices (mark pair side k bytes) = List.range' k bytes.length := by
  induction bytes generalizing k with
  | nil => rfl
  | cons b bytes ih =>
    have tail : indices (mark pair side k (b :: bytes)) = k :: indices (mark pair side (k + 1) bytes) := rfl
    rw [tail,ih,List.length_cons,List.range'_succ]

theorem markLength : (mark pair side k bytes).length = bytes.length := by
  induction bytes generalizing k with
  | nil => rfl
  | cons b bytes ih => simp only [mark,List.length_cons,ih]

theorem markText : text (mark pair side k bytes) = bytes := by
  induction bytes generalizing k with
  | nil => rfl
  | cons b bytes ih =>
    have tail : text (mark pair side k (b :: bytes)) = b :: text (mark pair side (k + 1) bytes) := rfl
    rw [tail,ih]

theorem markOrigin : ∀ cell ∈ mark pair side k bytes,∃ i,i < k + bytes.length ∧ cell.origin = some ⟨pair,side,i⟩ := by
  induction bytes generalizing k with
  | nil => simp [mark]
  | cons b bytes ih =>
    intro cell mem
    rcases List.mem_cons.mp mem with rfl | rest
    · exact ⟨k,by simp,rfl⟩
    · obtain ⟨i,small,origin⟩ := ih cell rest
      exact ⟨i,by rw [List.length_cons]; omega,origin⟩

theorem markAppend (as bs : Bytes) : mark pair side k (as ++ bs) = mark pair side k as ++ mark pair side (k + as.length) bs := by
  induction as generalizing k with
  | nil => rfl
  | cons b as ih => simp [mark,ih,Nat.add_right_comm,Nat.add_assoc]

theorem markAllFlat (packets : List Pkt) :
    (markAll pair side k packets).flatten = mark pair side k (pktBytes packets) := by
  induction packets generalizing k with
  | nil => rfl
  | cons p packets ih =>
    have bytes_ : pktBytes (p :: packets) = p.data ++ pktBytes packets := List.flatMap_cons
    rw [bytes_,markAppend,← ih]
    rfl

end marks

def Rising (cells : List Cell) : Prop := (indices cells).Pairwise (· < ·)

def Owned (pair : Nat) (side : Side) (seen : Nat) (cells : List Cell) : Prop :=
  ∀ cell ∈ cells,∃ k,k < seen ∧ cell.origin = some ⟨pair,side,k⟩

structure Fed (c seen : Nat) (cells : List Cell) : Prop where
  own : ∀ cell ∈ cells,cell ∈ adStr ∨ ∃ k,k < seen ∧ cell.origin = some ⟨c,.server,k⟩
  rising : Rising cells

def Relay.gathered (s : Relay) : Prop :=
  s.held = [] ∨ ∃ c x,s.appFlags c x = .proxyData ∧ Owned c x (s.received c x) s.held ∧
    (x = .server → Rising (s.delivered c ++ s.held))

structure Relay.Sound (s : Relay) : Prop where
  fed : ∀ c,Fed c (s.received c .server) (s.delivered c)
  gathered : s.gathered
  fits : s.bifVfLen ≤ s.bigVfBuf.length
  room : s.bifVfLen ≤ bigVfBufMax
  calm : s.wild = false

section feeding
variable {c seen more : Nat} {x : Side} {cells fresh sent held : List Cell}

theorem fedIndices (fed : Fed c seen cells) : ∀ k ∈ indices cells,k < seen := by
  intro k mem
  obtain ⟨cell,inside,index⟩ := List.mem_filterMap.mp mem
  rcases fed.own cell inside with own | ⟨i,small,origin⟩
  · have none_ : ∀ cell ∈ adStr,cell.origin = none := by decide
    rw [none_ cell own] at index
    cases index
  · rw [origin] at index
    cases Option.some.inj index
    exact small

theorem fedMore (fed : Fed c seen cells) (later : seen ≤ more) : Fed c more cells :=
  ⟨fun cell mem => (fed.own cell mem).imp_right fun ⟨k,small,origin⟩ => ⟨k,by omega,origin⟩,fed.rising⟩

theorem ownedMore (owned : Owned c x seen cells) (later : seen ≤ more) : Owned c x more cells :=
  fun cell mem => (owned cell mem).imp fun _ both => ⟨by omega,both.2⟩

theorem ownedAppend (first : Owned c x seen cells) (last : Owned c x seen fresh) : Owned c x seen (cells ++ fresh) := by
  intro cell mem
  exact (List.mem_append.mp mem).elim (first cell) (last cell)

theorem risingAppend (first : Rising cells) (before : ∀ k ∈ indices cells,k < seen) (bytes : Bytes) :
    Rising (cells ++ mark c x seen bytes) := by
  unfold Rising
  rw [indicesAppend,markIndices]
  refine List.pairwise_append.mpr ⟨first,List.pairwise_lt_range',fun i left k right => ?_⟩
  have low := (List.mem_range'.mp right)
  obtain ⟨j,_,rfl⟩ := low
  have small := before i left
  omega

def FromHeld (held sent : List Cell) : Prop :=
  (∀ cell ∈ sent,cell ∈ adStr ∨ cell ∈ held) ∧ (indices sent).Sublist (indices held)

theorem fromHeldAll (held : List Cell) : FromHeld held held := ⟨fun _ mem => .inr mem,List.Sublist.refl _⟩

theorem fromHeldCut (held : List Cell) (p n : Nat) : FromHeld held (held.take p ++ adStr ++ held.drop (p + n)) := by
  constructor
  · intro cell mem
    rcases List.mem_append.mp mem with front | back
    · rcases List.mem_append.mp front with front | own
      · exact .inr (List.mem_of_mem_take front)
      · exact .inl own
    · exact .inr (List.mem_of_mem_drop back)
  · have whole : indices held = indices (held.take p) ++ (indices ((held.drop p).take n) ++ indices (held.drop (p + n))) := by
      rw [← indicesAppend,← indicesAppend,← List.drop_drop,List.take_append_drop,List.take_append_drop]
    rw [indicesAppend,indicesAppend,adStrIndices,List.append_nil,whole]
    exact List.Sublist.append_left (List.sublist_append_right _ _) _

theorem fedSent (fed : Fed c seen cells) (later : seen ≤ more) (owned : Owned c .server more held)
    (rising : Rising (cells ++ held)) (from_ : FromHeld held sent) : Fed c more (cells ++ sent) := by
  refine ⟨fun cell mem => ?_,?_⟩
  · rcases List.mem_append.mp mem with old | new
    · exact (fedMore fed later).own cell old
    · exact (from_.1 cell new).imp_right (owned cell)
  · unfold Rising at rising ⊢
    rw [indicesAppend] at rising ⊢
    exact rising.sublist (List.Sublist.append_left from_.2 _)

end feeding

inductive Proxied (f : AdFilter) (e : Event) (flat : List Cell) : AdFilter × List Cell → Prop where
  | kept : Proxied f e flat (f.append flat,[])
  | flushed {g sent} (from_ : FromHeld (f.held ++ flat) sent) (empty : g.bifVfLen = 0) (calm : g.wild = f.wild)
    (flags : g.appFlags = (f.setFlags e.pair e.side .none).appFlags) : Proxied f e flat (g,sent)

section steps
variable {f : AdFilter} {s t : Relay} {e : Event}

theorem proxyCases {packets : List (List Cell)} (fits : f.bifVfLen ≤ f.bigVfBuf.length)
    (room : f.bifVfLen + packets.flatten.length ≤ bigVfBufMax)
    (inside : spanInside (f.append packets.flatten).bigVfBuf (f.append packets.flatten).bifVfLen = true) : Proxied f e packets.flatten (vfProxy f e packets) := by
  have more : (f.append packets.flatten).bifVfLen ≤ (f.append packets.flatten).bigVfBuf.length := putLength fits _
  have still : (f.append packets.flatten).wild = f.wild := by
    unfold AdFilter.append
    rw [decide_eq_false (Nat.not_lt_of_le room),Bool.or_false]
  unfold vfProxy
  rw [appendAll fits (Nat.le_of_add_right_le room)]
  dsimp only
  cases span : adSpan (f.append packets.flatten).bigVfBuf with
  | none =>
    dsimp only
    split
    · exact .flushed (by rw [← appendHeld fits]; exact fromHeldAll _) rfl still rfl
    · exact .kept
  | some span_ =>
    obtain ⟨p,n⟩ := span_
    dsimp only
    split
    · rename_i long
      have within : p + n ≤ (f.append packets.flatten).bifVfLen := by
        unfold spanInside at inside
        simp only [span,Bool.or_eq_true,decide_eq_true_eq] at inside
        omega
      have valid : validAdStrLen = 128 := rfl
      refine .flushed ?_ rfl ?_ rfl
      · rw [cutHeld more (by omega) within,appendHeld fits]
        exact fromHeldCut _ p n
      · have calm : ¬(f.append packets.flatten).bifVfLen < p + n := Nat.not_lt_of_le within
        change ((f.append packets.flatten).wild || decide ((f.append packets.flatten).bifVfLen < p + n)) = f.wild
        rw [still,decide_eq_false calm,Bool.or_false]
    · exact .flushed (by rw [← appendHeld fits]; exact fromHeldAll _) rfl still rfl

inductive Forwarded (f : AdFilter) (e : Event) (flat : List Cell) : AdFilter × List Cell → Prop where
  | matched : Forwarded f e flat
    ({ f with bigVfBuf := [],bifVfLen := 0 }.setFlags e.pair e.side.other .proxyData,flat)
  | dropped : Forwarded f e flat (f,[])
  | plain : Forwarded f e flat (f,flat)

theorem forwardCases (f : AdFilter) (e : Event) (packets : List (List Cell)) :
    Forwarded f e packets.flatten (vfForward f e packets) := by
  unfold vfForward
  split
  · exact .matched
  · split
    · exact .dropped
    · exact .plain

def Relay.after (s : Relay) (e : Event) (out : AdFilter × List Cell) : Relay :=
  { toAdFilter := out.1
    received := fun p x =>
      if p = e.pair ∧ x = e.side then s.received p x + (pktBytes e.packets).length else s.received p x
    delivered := fun p => if p = e.pair ∧ e.side = .server then s.delivered p ++ out.2 else s.delivered p }

theorem laterSeen (s : Relay) (e : Event) (out : AdFilter × List Cell) (c : Nat) (x : Side) :
    s.received c x ≤ (s.after e out).received c x := by
  unfold Relay.after
  dsimp only
  split <;> omega

theorem hereSeen (s : Relay) (e : Event) (out : AdFilter × List Cell) :
    (s.after e out).received e.pair e.side = s.received e.pair e.side + (pktBytes e.packets).length :=
  if_pos ⟨rfl,rfl⟩

theorem afterFed (sound : s.Sound) {out : AdFilter × List Cell}
    (sends : e.side = .server → Fed e.pair ((s.after e out).received e.pair .server) (s.delivered e.pair ++ out.2)) (c : Nat) :
    Fed c ((s.after e out).received c .server) ((s.after e out).delivered c) := by
  have same : (s.after e out).delivered c =
      if c = e.pair ∧ e.side = .server then s.delivered c ++ out.2 else s.delivered c := rfl
  rw [same]
  split
  · rename_i mine
    obtain ⟨rfl,server⟩ := mine
    exact sends server
  · exact fedMore (sound.fed c) (laterSeen s e out c .server)

theorem freshFed (sound : s.Sound) (out : AdFilter × List Cell) (server : e.side = .server) :
    Fed e.pair ((s.after e out).received e.pair .server) (s.delivered e.pair ++ (s.marked e).flatten) := by
  have seen := hereSeen s e out
  unfold Relay.marked
  rw [server] at seen ⊢
  rw [markAllFlat,seen]
  have fed := sound.fed e.pair
  have owned : Owned e.pair .server (s.received e.pair .server + (pktBytes e.packets).length)
      (mark e.pair .server (s.received e.pair .server) (pktBytes e.packets)) := markOrigin
  refine fedSent fed (Nat.le_add_right _ _) owned ?_ (fromHeldAll _)
  exact risingAppend fed.rising (fedIndices fed) _

theorem quietFed (sound : s.Sound) (out : AdFilter × List Cell) (silent : out.2 = []) :
    Fed e.pair ((s.after e out).received e.pair .server) (s.delivered e.pair ++ out.2) := by
  rw [silent,List.append_nil]
  exact fedMore (sound.fed e.pair) (laterSeen s e out e.pair .server)

theorem afterGathered (sound : s.Sound) {out : AdFilter × List Cell} (held : out.1.held = s.held)
    (flags : out.1.appFlags = s.appFlags) (apart : s.appFlags e.pair e.side ≠ .proxyData) : (s.after e out).gathered := by
  rcases sound.gathered with empty | ⟨c,x,proxy,owned,rising⟩
  · exact .inl (held.trans empty)
  · refine .inr ⟨c,x,(congrFun (congrFun flags c) x).trans proxy,?_,fun server => ?_⟩
    · have same : (s.after e out).held = s.held := held
      rw [same]
      exact ownedMore owned (laterSeen s e out c x)
    · have other : ¬(c = e.pair ∧ e.side = .server) := by
        rintro ⟨rfl,mine⟩
        exact apart (by rw [mine,← server]; exact proxy)
      have delivered : (s.after e out).delivered c = s.delivered c := if_neg other
      have same : (s.after e out).held = s.held := held
      rw [delivered,same]
      exact rising server

theorem ownHeld (sound : s.Sound) (same : ∀ cell ∈ s.held,cell.source = some (e.pair,e.side)) :
    Owned e.pair e.side (s.received e.pair e.side) s.held ∧
      (e.side = .server → Rising (s.delivered e.pair ++ s.held)) := by
  rcases sound.gathered with empty | ⟨c,x,_,owned,rising⟩
  · rw [empty,List.append_nil]
    exact ⟨nofun,fun _ => (sound.fed e.pair).rising⟩
  · cases held : s.held with
    | nil =>
      rw [List.append_nil]
      exact ⟨nofun,fun _ => (sound.fed e.pair).rising⟩
    | cons cell cells =>
      have here : cell ∈ s.held := by simp [held]
      have mine := same cell here
      obtain ⟨i,_,origin⟩ := owned cell here
      unfold Cell.source at mine
      rw [origin] at mine
      cases mine
      exact ⟨held ▸ owned,held ▸ rising⟩

theorem proxySound (sound : s.Sound) (proxy : s.appFlags e.pair e.side = .proxyData)
    (same : ∀ cell ∈ s.held,cell.source = some (e.pair,e.side))
    (room : s.bifVfLen + (pktBytes e.packets).length < bigVfBufMax) {out : AdFilter × List Cell}
    (proxied : Proxied s.toAdFilter e (s.marked e).flatten out) : (s.after e out).Sound := by
  obtain ⟨owned,rising⟩ := ownHeld sound same
  have fresh : (s.marked e).flatten = mark e.pair e.side (s.received e.pair e.side) (pktBytes e.packets) := markAllFlat _
  have whole : Owned e.pair e.side ((s.after e out).received e.pair e.side) (s.held ++ (s.marked e).flatten) := by
    rw [hereSeen,fresh]
    exact ownedAppend (ownedMore owned (Nat.le_add_right _ _)) markOrigin
  have order (server : e.side = .server) : Rising (s.delivered e.pair ++ (s.held ++ (s.marked e).flatten)) := by
    rw [fresh,← List.append_assoc,server]
    refine risingAppend (rising server) (fun k mem => ?_) _
    rw [indicesAppend] at mem
    rcases List.mem_append.mp mem with old | new
    · exact fedIndices (sound.fed e.pair) k old
    · obtain ⟨cell,inside,index⟩ := List.mem_filterMap.mp new
      obtain ⟨i,small,origin⟩ := owned cell inside
      rw [origin] at index
      cases Option.some.inj index
      rw [← server]
      exact small
  cases proxied with
  | kept =>
    have held : (s.after e (s.toAdFilter.append (s.marked e).flatten,[])).held = s.held ++ (s.marked e).flatten :=
      appendHeld sound.fits _
    have size : (s.marked e).flatten.length = (pktBytes e.packets).length := by
      rw [fresh,markLength]
    refine ⟨afterFed sound fun _ => quietFed sound _ rfl,.inr ⟨e.pair,e.side,proxy,?_,fun server => ?_⟩,?_,?_,?_⟩
    · rw [held]
      exact whole
    · have delivered : (s.after e (s.toAdFilter.append (s.marked e).flatten,[])).delivered e.pair =
          s.delivered e.pair ++ [] := if_pos ⟨rfl,server⟩
      rw [held,delivered,List.append_nil]
      exact order server
    · exact putLength sound.fits _
    · change s.bifVfLen + (s.marked e).flatten.length ≤ bigVfBufMax
      rw [size]
      exact room.le
    · change (s.wild || decide (bigVfBufMax < s.bifVfLen + (s.marked e).flatten.length)) = false
      rw [size,sound.calm,decide_eq_false (Nat.not_lt_of_le room.le),Bool.or_false]
  | @flushed g sent from_ empty calm flags =>
    refine ⟨afterFed sound fun server => ?_,.inl ?_,?_,?_,calm.trans sound.calm⟩
    · rw [server] at whole
      exact fedSent (sound.fed e.pair) (laterSeen s e (g,sent) e.pair .server) whole (order server) from_
    · change g.bigVfBuf.take g.bifVfLen = []
      rw [empty,List.take_zero]
    · exact empty.le.trans (Nat.zero_le _)
    · exact empty.le.trans (Nat.zero_le _)

theorem forwardSound (sound : s.Sound) (apart : s.appFlags e.pair e.side ≠ .proxyData) {out : AdFilter × List Cell}
    (forwarded : Forwarded s.toAdFilter e (s.marked e).flatten out) : (s.after e out).Sound := by
  cases forwarded with
  | matched =>
    exact ⟨afterFed sound (freshFed sound _),.inl rfl,Nat.zero_le _,Nat.zero_le _,sound.calm⟩
  | dropped =>
    exact ⟨afterFed sound fun _ => quietFed sound _ rfl,afterGathered sound rfl rfl apart,sound.fits,sound.room,sound.calm⟩
  | plain =>
    exact ⟨afterFed sound (freshFed sound _),afterGathered sound rfl rfl apart,sound.fits,sound.room,sound.calm⟩

theorem quietSame (s : Relay) (none_ : e.packets = []) : s.after e (s.toAdFilter,[]) = s := by
  simp [Relay.after,none_,pktBytes]

theorem relaySound (sound : s.Sound) (heeds : s.heeds e) (next : s.step e = some t) : t.Sound := by
  have after : t = s.after e (ngxHttpVfDeal s.toAdFilter e (s.marked e)) := (Option.some.inj next).symm
  rw [after]
  unfold ngxHttpVfDeal
  split
  · rename_i quiet
    rw [quietSame s quiet.1]
    exact sound
  · rename_i active
    split
    · rename_i proxy
      obtain ⟨same,room,inside⟩ := heeds ⟨proxy,active⟩
      have size : (s.marked e).flatten.length = (pktBytes e.packets).length := by
        unfold Relay.marked
        rw [markAllFlat,markLength]
      rw [← size] at inside
      exact proxySound sound proxy same room (proxyCases sound.fits (by rw [size]; exact room.le) inside)
    · rename_i apart
      exact forwardSound sound apart (forwardCases _ e _)

theorem startSound (advStr : Bytes) : (Relay.start advStr).Sound :=
  ⟨fun _ => ⟨nofun,.nil⟩,.inl rfl,Nat.le_refl _,Nat.zero_le _,rfl⟩

theorem soundIsolated (sound : s.Sound) : s.isolated := by
  refine ⟨fun c cell mem => ?_,fun c => ?_,sound.room,sound.calm⟩
  · exact ((sound.fed c).own cell mem).imp_right fun ⟨k,_,origin⟩ => ⟨k,origin⟩
  · exact (sound.fed c).rising.imp Nat.ne_of_lt

/-- In a run in which no side meets the bytes of another one in the buffer, and none fills it, every client gets the
bytes of its own server. -/
theorem adIsolated (advStr : Bytes) (events : List Event)
    (heeded : Along Relay.step (fun s e _ => s.heeds e) (.start advStr) events) :
    Along Relay.step (fun _ _ t => t.isolated) (.start advStr) events := by
  have kept {s t : Relay} {e : Event} (sound : s.Sound) (heeds : s.heeds e) (next : s.step e = some t) :
      t.Sound ∧ t.isolated :=
    ⟨relaySound sound heeds next,soundIsolated (relaySound sound heeds next)⟩
  exact alongInvariant (P := fun s e _ => s.heeds e) (Q := fun _ _ t => t.isolated) kept (startSound advStr) heeded

def adRequest (pair : Nat) : Event := ⟨pair,.client,false,[⟨ascii "GET /adv/1",[]⟩],⟨[],[]⟩⟩
def adAnswer (pair : Nat) (shutdown : Bool) (data : String) : Event := ⟨pair,.server,shutdown,[⟨ascii data,[]⟩],⟨[],[]⟩⟩

theorem adIsolatedOne : Along Relay.step (fun _ _ t => t.isolated) (.start (ascii "/adv"))
    [adRequest 0,adAnswer 0 false "abc",adAnswer 0 true "def",adRequest 1,adAnswer 1 true "ghi"] :=
  adIsolated (ascii "/adv") _ (by decide)

def twoRequests : List Event := [adRequest 0,adRequest 1,adAnswer 0 false "abc"]

def strayByte : Cell := ⟨97,some ⟨0,.server,0⟩⟩

theorem twoRequestsEnd : (run Relay.step (.start (ascii "/adv")) twoRequests).bind (fun s =>
    (s.step (adAnswer 1 true "def")).map fun t => (t.delivered 1).head?) = some (some strayByte) := by decide

theorem adMixed : ¬Along Relay.step (fun _ _ t => t.isolated) (.start (ascii "/adv"))
    (twoRequests ++ [adAnswer 1 true "def"]) := by
  intro all
  obtain ⟨s,path,rest⟩ := Option.bind_eq_some_iff.mp twoRequestsEnd
  obtain ⟨t,next,first⟩ := Option.map_eq_some_iff.mp rest
  obtain ⟨own,_⟩ := (alongRest all path t next).1
  rcases own 1 strayByte (List.mem_of_head? first) with fixed | ⟨k,origin⟩
  · exact absurd fixed (by decide)
  · cases origin

end steps

end MipsElfExec.Adv
