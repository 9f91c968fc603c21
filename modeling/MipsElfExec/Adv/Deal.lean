import MipsElfExec.Adv.Answer

/-! What the players are answered, over all that can happen to the filter. -/
namespace MipsElfExec.Adv
open CString Access

def blank : Bytes := crlf ++ crlf

def Blankless (text : Bytes) : Prop := search blank text = none ∧ ∃ c,text.getLast? = some c ∧ c ∉ blank

section texts
variable {s t : Bytes}

theorem blankLast : blank.dropLast ⊆ blank := List.dropLast_subset blank

theorem blanklessAppend (first : Blankless s) (second : Blankless t) : Blankless (s ++ t) := by
  obtain ⟨none_,c,last,other⟩ := first
  obtain ⟨missing,d,end_,apart⟩ := second
  refine ⟨?_,d,?_,apart⟩
  · rw [searchBeyond last (fun mem => other (blankLast mem)) none_,missing]
    rfl
  · rw [List.getLast?_append,end_]
    rfl

theorem blanklessFirst (first : Blankless s) (body : Bytes) : search blank (s ++ (blank ++ body)) = some s.length := by
  obtain ⟨none_,c,last,other⟩ := first
  rw [searchBeyond last (fun mem => other (blankLast mem)) none_,searchSelf]
  simp

theorem digitsBlankless (some_ : t ≠ []) (all : ∀ b ∈ t,b ∉ blank) : Blankless t := by
  refine ⟨?_,_,List.getLast?_eq_some_getLast some_,all _ (List.getLast_mem some_)⟩
  have skip := @searchSkip [10,13,10] t 13 (fun mem => all 13 mem (by decide)) []
  rw [List.append_nil] at skip
  exact skip

theorem numeralBlankless (n : Nat) : Blankless (numeral 10 n) := by
  refine digitsBlankless (numeralSome 10 n) fun b mem inside => ?_
  have digit := numeralIsDigits n b mem
  have break_ : b = 13 ∨ b = 10 ∨ b = 13 ∨ b = 10 := by simpa [blank,crlf] using inside
  rcases break_ with rfl | rfl | rfl | rfl <;> cases digit

theorem intBlankless (n : Int) : Blankless (intText n) := by
  unfold intText
  split
  · exact blanklessAppend (show Blankless [45] from ⟨by decide,45,rfl,by decide⟩) (numeralBlankless n.natAbs)
  · exact numeralBlankless n.toNat

end texts

section makers
variable {room : Nat} {text bytes resp buf head : Bytes} {n : Int} {out out' : Print}

theorem memcpyRan (front : text.length ≤ room) (run : memcpyAt (filled room text,text.length) bytes = .ok out) :
    (text ++ bytes).length ≤ room ∧ out = (filled room (text ++ bytes),(text ++ bytes).length) := by
  rw [memcpyAt,blitNext front] at run
  split at run
  · rename_i fits
    cases run
    exact ⟨fits,by rw [List.length_append]⟩
  · cases run

theorem sprintfRan (front : text.length ≤ room) (run : sprintfAt (filled room text,text.length) bytes = .ok out) :
    (text ++ bytes).length ≤ room ∧ out = (filled room (text ++ bytes),(text ++ bytes).length) := by
  rw [sprintfAt,blitNext front] at run
  split at run
  · rename_i fits
    rw [← List.append_assoc,List.length_append,List.length_singleton] at fits
    rw [← List.append_assoc,filledEnd (by omega)] at run
    cases run
    exact ⟨by omega,by rw [List.length_append]⟩
  · cases run

theorem bytesRan (run : bytesAt buf n = .ok bytes) : 0 ≤ n ∧ n ≤ buf.length ∧ bytes = buf.take n.toNat := by
  unfold bytesAt at run
  split at run
  · rename_i inside
    cases run
    exact ⟨inside.1,inside.2,rfl⟩
  · cases run

def Holds (out : Print) (text : Bytes) : Prop := out.1.take out.2 = text

theorem filledHolds (room : Nat) (text : Bytes) : Holds (filled room text,text.length) text := List.take_left

theorem makeRan (run : makeResponse (filled room []) buf n head = .ok out) :
    0 ≤ n ∧ n ≤ buf.length ∧ Holds out (head ++ (intText n ++ (blank ++ buf.take n.toNat))) := by
  obtain ⟨first,run₁,run⟩ := bindOk run
  obtain ⟨fits,rfl⟩ := memcpyRan (Nat.zero_le _) run₁
  obtain ⟨second,run₂,run⟩ := bindOk run
  obtain ⟨fits,rfl⟩ := sprintfRan fits run₂
  obtain ⟨body,read,run⟩ := bindOk run
  obtain ⟨some_,inside,rfl⟩ := bytesRan read
  obtain ⟨fits,rfl⟩ := memcpyRan fits run
  refine ⟨some_,inside,?_⟩
  have holds := filledHolds room (([] ++ head ++ (intText n ++ (crlf ++ crlf))) ++ buf.take n.toNat)
  simpa only [List.nil_append,List.append_assoc,blank] using holds

theorem m3u8Ran {isRange : Bool} (run : ngxHttpMakeYoukuM3u8Response (filled room []) buf n isRange = .ok out) :
    ∃ range len body,Holds out (youkuM3u8Response1 ++ (range ++ (crlf ++ (youkuM3u8Response2 ++ (intText len ++ (blank ++ body)))))) ∧
      Blankless range ∧ (body.length : Int) = len ∧ if isRange then body = ascii "#E" else 0 ≤ n ∧ n ≤ buf.length ∧ body = buf.take n.toNat := by
  unfold ngxHttpMakeYoukuM3u8Response at run
  obtain ⟨first,run₁,run⟩ := bindOk run
  obtain ⟨fits,rfl⟩ := memcpyRan (Nat.zero_le _) run₁
  cases isRange with
  | true =>
    obtain ⟨second,run₂,run⟩ := bindOk run
    obtain ⟨fits,rfl⟩ := sprintfRan fits run₂
    obtain ⟨fits,rfl⟩ := sprintfRan fits run
    refine ⟨ascii "0-1/" ++ intText n,2,ascii "#E",?_,?_,by decide,rfl⟩
    · have holds := filledHolds room (([] ++ youkuM3u8Response1 ++ (ascii "0-1/" ++ (intText n ++ crlf))) ++
        (youkuM3u8Response2 ++ (intText 2 ++ (crlf ++ (crlf ++ ascii "#E")))))
      simpa only [List.nil_append,List.append_assoc,blank] using holds
    · exact blanklessAppend ⟨by decide,47,by decide,by decide⟩ (intBlankless n)
  | false =>
    obtain ⟨second,run₂,run⟩ := bindOk run
    obtain ⟨fits,rfl⟩ := sprintfRan fits run₂
    obtain ⟨third,run₃,run⟩ := bindOk run
    obtain ⟨fits,rfl⟩ := sprintfRan fits run₃
    obtain ⟨body,read,run⟩ := bindOk run
    obtain ⟨some_,inside,rfl⟩ := bytesRan read
    obtain ⟨fits,rfl⟩ := memcpyRan fits run
    refine ⟨ascii "0-" ++ (intText (n - 1) ++ (ascii "/" ++ intText n)),n,buf.take n.toNat,?_,?_,?_,some_,inside,rfl⟩
    · have holds := filledHolds room (([] ++ youkuM3u8Response1 ++
        (ascii "0-" ++ (intText (n - 1) ++ (ascii "/" ++ (intText n ++ crlf))))) ++
        (youkuM3u8Response2 ++ (intText n ++ (crlf ++ crlf))) ++ buf.take n.toNat)
      simpa only [List.nil_append,List.append_assoc,blank] using holds
    · exact blanklessAppend ⟨by decide,45,by decide,by decide⟩ (blanklessAppend (intBlankless (n - 1))
        (blanklessAppend ⟨by decide,47,by decide,by decide⟩ (intBlankless n)))
    · rw [List.length_take]
      omega

def Announces (message body : Bytes) : Prop := ∃ front digits,message = front ++ (youkuM3u8Response2 ++ (digits ++ (blank ++ body))) ∧
  digits ≠ [] ∧ (∀ b ∈ digits,isdigit b = true) ∧ numeralValue digits = body.length ∧
  search blank message = some (front ++ (youkuM3u8Response2 ++ digits)).length

theorem announcesLength {front body : Bytes} {len : Int} (plain : Blankless (front ++ youkuM3u8Response2))
    (size : (body.length : Int) = len) : Announces (front ++ (youkuM3u8Response2 ++ (intText len ++ (blank ++ body)))) body := by
  have some_ : intText len = numeral 10 body.length := by
    rw [← size,intText,if_neg (by omega),Int.toNat_natCast]
  refine ⟨front,numeral 10 body.length,by rw [some_],numeralSome 10 _,numeralIsDigits _,numeralRead _,?_⟩
  have first := blanklessFirst (blanklessAppend plain (numeralBlankless body.length)) body
  rw [some_]
  simpa only [List.append_assoc] using first

theorem takenLength (some_ : 0 ≤ n) (inside : n ≤ buf.length) : ((buf.take n.toNat).length : Int) = n := by
  rw [List.length_take]
  omega

def frontOf (head : Bytes) : Bytes := head.take (head.length - youkuM3u8Response2.length)

def Head (head : Bytes) : Bool := head == frontOf head ++ youkuM3u8Response2 && (search blank head).isNone

theorem headSplit (right : Head head = true) : head = frontOf head ++ youkuM3u8Response2 ∧ Blankless head := by
  obtain ⟨split,plain⟩ := Bool.and_eq_true_iff.mp right
  have split := beq_iff_eq.mp split
  refine ⟨split,Option.isNone_iff_eq_none.mp plain,32,?_,by decide⟩
  rw [split,List.getLast?_append]
  rfl

theorem headsRight : ∀ head ∈ [vfResponse,getSResponse,getMResponse],Head head = true := by decide +kernel

theorem makeAnnounces (right : Head head = true) (run : makeResponse (filled room []) buf n head = .ok out) :
    Announces (out.1.take out.2) (buf.take n.toNat) ∧ 0 ≤ n ∧ n ≤ buf.length := by
  obtain ⟨some_,inside,holds⟩ := makeRan run
  obtain ⟨split,plain⟩ := headSplit right
  rw [split] at holds plain
  rw [List.append_assoc] at holds
  exact ⟨holds ▸ announcesLength plain (takenLength some_ inside),some_,inside⟩

theorem replyAnnounces {s : Answerer} {reply : Reply} (run : s.make reply = .ok out) : ∃ body,Announces (out.1.take out.2) body ∧
    (body = ascii "#E" ∨ 0 ≤ s.bifVfLen ∧ s.bifVfLen ≤ s.bigVfBuf.length ∧ body = s.bigVfBuf.take s.bifVfLen.toNat) := by
  cases reply with
  | vf =>
    obtain ⟨announces,inside⟩ := makeAnnounces (headsRight _ (by simp)) run
    exact ⟨_,announces,.inr ⟨inside.1,inside.2,rfl⟩⟩
  | getS =>
    obtain ⟨announces,inside⟩ := makeAnnounces (headsRight _ (by simp)) run
    exact ⟨_,announces,.inr ⟨inside.1,inside.2,rfl⟩⟩
  | youkuM3u8 isRange =>
    obtain ⟨range,len,body,holds,middle,size,which⟩ := m3u8Ran run
    have plain : Blankless (youkuM3u8Response1 ++ (range ++ (crlf ++ youkuM3u8Response2))) :=
      blanklessAppend ⟨by decide +kernel,32,by decide +kernel,by decide⟩
        (blanklessAppend middle ⟨by decide,32,rfl,by decide⟩)
    have plain : Blankless ((youkuM3u8Response1 ++ (range ++ crlf)) ++ youkuM3u8Response2) := by
      simpa only [List.append_assoc] using plain
    have announces := announcesLength plain size
    simp only [List.append_assoc] at announces
    refine ⟨body,holds ▸ announces,?_⟩
    cases isRange with
    | true => exact .inl which
    | false => exact .inr which

end makers

def Answerer.Alike (pair : Nat) (s u : Answerer) : Prop :=
  ∃ flags,u = { s with appFlags := flags } ∧ ∀ side,flags pair side = s.appFlags pair side

def Turn.gathers (s : Answerer) : Turn → Prop
  | .packets e => e.packets ≠ [] ∧ s.appFlags e.pair e.side = .proxyData
  | _ => False

section turns
variable {s s' u : Answerer} {e : Event} {x : Sent} {pair : Nat}

theorem alikeRefl (pair : Nat) (s : Answerer) : s.Alike pair s := ⟨s.appFlags,rfl,fun _ => rfl⟩

theorem alikeTrans {v : Answerer} (first : s.Alike pair u) (second : u.Alike pair v) : s.Alike pair v := by
  obtain ⟨flags,rfl,same⟩ := first
  obtain ⟨flags',rfl,same'⟩ := second
  exact ⟨flags',rfl,fun side => (same' side).trans (same side)⟩

theorem flagsAlike {pair' : Nat} (other : pair ≠ pair') (s : Answerer) (side : Side) (flags : AppFlags) :
    s.Alike pair (s.setFlags pair' side flags) := by
  refine ⟨_,rfl,fun x => ?_⟩
  exact if_neg fun both => other both.1

theorem setAlike (alike : s.Alike pair u) (side : Side) (flags : AppFlags) :
    (s.setFlags pair side flags).Alike pair (u.setFlags pair side flags) := by
  obtain ⟨flags',rfl,same⟩ := alike
  refine ⟨_,rfl,fun x => ?_⟩
  simp only [Answerer.setFlags,same x]

theorem gatherOwn (ps : List Pkt) (side : Side) (run : s.gather pair side ps = .ok (s',x)) : x.own = [] := by
  induction ps generalizing s with
  | nil =>
    cases run
    rfl
  | cons p ps ih =>
    obtain ⟨s₁,-,run⟩ := bindOk run
    obtain ⟨found,-,run⟩ := bindOk run
    cases found with
    | none => exact ih run
    | some at_ =>
      obtain ⟨⟨resp,rspLen⟩,-,run⟩ := bindOk run
      cases rspLen with
      | none => cases run
      | some rspLen =>
        obtain ⟨answer,-,run⟩ := bindOk run
        cases run
        rfl

theorem dealCases (run : ngxHttpVfDeal1 s e = .ok (s',x)) (calm : ¬(Turn.packets e).gathers s) :
    (∀ other,other ≠ e.pair → s.Alike other s') ∧ s'.advStr = s.advStr ∧ s'.bigVfBuf = s.bigVfBuf ∧ s'.bifVfLen = s.bifVfLen ∧
      (x.own = [] ∨ ∃ reply out,s.make reply = .ok out ∧ x.own = out.1.take out.2) := by
  unfold ngxHttpVfDeal1 at run
  cases packets : e.packets with
  | nil =>
    rw [packets] at run
    cases run
    exact ⟨fun other _ => alikeRefl other s,rfl,rfl,rfl,.inl rfl⟩
  | cons p ps =>
    rw [packets] at run
    dsimp only at run
    rw [if_neg fun proxy => calm ⟨by rw [packets]; exact List.cons_ne_nil p ps,proxy⟩] at run
    obtain ⟨ask,-,run⟩ := bindOk run
    cases ask with
    | answer reply own other =>
      obtain ⟨out,made,run⟩ := bindOk run
      cases run
      exact ⟨fun far apart => alikeTrans (flagsAlike apart s _ _) (flagsAlike apart _ _ _),rfl,rfl,rfl,.inr ⟨reply,out,made,rfl⟩⟩
    | finish reset =>
      cases run
      refine ⟨fun far apart => ?_,?_,?_,?_,.inl ?_⟩
      · split
        · exact alikeTrans (flagsAlike apart s _ _) (flagsAlike apart _ _ _)
        · exact alikeRefl far s
      · split <;> rfl
      · split <;> rfl
      · split <;> rfl
      · exact (apply_ite Sent.own _ _ _).trans (ite_self [])

theorem dealAlike (alike : s.Alike e.pair u) (run : ngxHttpVfDeal1 s e = .ok (s',x)) (calm : ¬(Turn.packets e).gathers s) :
    ∃ u',ngxHttpVfDeal1 u e = .ok (u',x) ∧ s'.Alike e.pair u' := by
  obtain ⟨flags,rfl,same⟩ := alike
  unfold ngxHttpVfDeal1 at run ⊢
  cases packets : e.packets with
  | nil =>
    rw [packets] at run
    cases run
    exact ⟨_,rfl,flags,rfl,same⟩
  | cons p ps =>
    have plain : s.appFlags e.pair e.side ≠ .proxyData := fun proxy => calm ⟨by rw [packets]; exact List.cons_ne_nil p ps,proxy⟩
    have alike : s.Alike e.pair { s with appFlags := flags } := ⟨flags,rfl,same⟩
    rw [packets] at run
    dsimp only at run ⊢
    rw [if_neg plain] at run
    rw [if_neg (by rw [same]; exact plain)]
    obtain ⟨ask,asked,run⟩ := bindOk run
    have again : (if 8 < p.data.length then ({ s with appFlags := flags } : Answerer).ask (p.data ++ p.behind) else pure (.finish false)) =
        .ok ask := asked
    rw [again]
    cases ask with
    | answer reply own other =>
      obtain ⟨out,made,run⟩ := bindOk run
      have remade : ({ s with appFlags := flags } : Answerer).make reply = .ok out := by
        rw [← made]
        cases reply <;> rfl
      cases run
      refine ⟨_,?_,setAlike (setAlike alike e.side own) e.side.other other⟩
      simp only [okBind,remade]
      rfl
    | finish reset =>
      cases run
      have cleared : (if reset then (s.setFlags e.pair e.side .none).setFlags e.pair e.side.other .none else s).Alike e.pair
          (if reset then (({ s with appFlags := flags } : Answerer).setFlags e.pair e.side .none).setFlags e.pair e.side.other .none
            else { s with appFlags := flags }) := by
        split
        · exact setAlike (setAlike alike _ _) _ _
        · exact alike
      refine ⟨_,?_,cleared⟩
      obtain ⟨flags',whole,equal⟩ := cleared
      have seen : (if reset then (({ s with appFlags := flags } : Answerer).setFlags e.pair e.side .none).setFlags e.pair e.side.other .none
          else { s with appFlags := flags }).appFlags e.pair e.side =
          (if reset then (s.setFlags e.pair e.side .none).setFlags e.pair e.side.other .none else s).appFlags e.pair e.side := by
        rw [whole]
        exact equal e.side
      rw [← seen]
      rfl

theorem loadAlike (result : LoadResult) (alike : s.Alike pair u) (run : makeVfResBuf s result = .ok s') :
    ∃ u',makeVfResBuf u result = .ok u' ∧ s'.Alike pair u' := by
  obtain ⟨flags,rfl,same⟩ := alike
  cases result with
  | closed =>
    cases run
    exact ⟨_,rfl,flags,rfl,same⟩
  | failed =>
    obtain ⟨buf,cleared,run⟩ := bindOk run
    cases run
    exact ⟨_,congrArg (· >>= _) cleared,flags,rfl,same⟩
  | read bytes =>
    obtain ⟨buf,cleared,run⟩ := bindOk run
    obtain ⟨buf',filled,run⟩ := bindOk run
    cases run
    refine ⟨_,?_,flags,rfl,same⟩
    simp only [makeVfResBuf,cleared,okBind,filled]
    rfl

end turns

def Answerer.calm : Answerer → List Turn → Prop
  | _,[] => True
  | s,t :: ts => ¬t.gathers s ∧ ∀ s' x,s.turn t = .ok (s',x) → s'.calm ts

def Turn.about (pair : Nat) : Turn → Bool
  | .packets e => e.pair == pair
  | _ => true

def sentAbout (pair : Nat) : List Turn → List Sent → List Sent
  | t :: ts,x :: xs => if t.about pair then x :: sentAbout pair ts xs else sentAbout pair ts xs
  | _,_ => []

def loaded : Option Bytes → Turn → Option Bytes
  | _,.makeVfResBuf (.read bytes) => some (bytes.take vfResLen)
  | _,.makeVfResBuf .failed => none
  | held,_ => held

def Answerer.Stocked (s : Answerer) (held : Option Bytes) : Prop := match held with
  | none => s.bifVfLen < 0
  | some bytes => s.bifVfLen = bytes.length ∧ bytes <+: s.bigVfBuf

section runs
variable {s s' u : Answerer} {sent : List Sent} {x : Sent} {t : Turn} {ts : List Turn} {pair : Nat} {held : Option Bytes}

theorem turnsCons (ran : s.turns (t :: ts) = .ok (s',sent)) :
    ∃ s₁ x rest,s.turn t = .ok (s₁,x) ∧ s₁.turns ts = .ok (s',rest) ∧ sent = x :: rest := by
  obtain ⟨⟨s₁,x⟩,first,ran⟩ := bindOk ran
  obtain ⟨⟨s₂,rest⟩,later,ran⟩ := bindOk ran
  cases ran
  exact ⟨s₁,x,rest,first,later,rfl⟩

theorem mapOk {α β : Type} {x : Checked α} {f : α → β} {v : β} (run : f <$> x = .ok v) : ∃ w,x = .ok w ∧ f w = v := by
  cases x with
  | error fault => cases run
  | ok w =>
    cases run
    exact ⟨w,rfl,rfl⟩

theorem turnAlike (alike : s.Alike pair u) (about : t.about pair = true) (run : s.turn t = .ok (s',x)) (calm : ¬t.gathers s) :
    ∃ u',u.turn t = .ok (u',x) ∧ s'.Alike pair u' := by
  cases t with
  | packets e =>
    have same : e.pair = pair := beq_iff_eq.mp about
    subst same
    exact dealAlike alike run calm
  | makeVfResBuf result =>
    obtain ⟨s₁,load,same⟩ := mapOk run
    cases same
    obtain ⟨u',reload,after⟩ := loadAlike result alike load
    exact ⟨u',by simp only [Answerer.turn,reload]; rfl,after⟩
  | setAdvStr adv =>
    obtain ⟨flags,rfl,same⟩ := alike
    obtain ⟨s₁,set,equal⟩ := mapOk run
    cases equal
    obtain ⟨array,stored,equal⟩ := mapOk set
    subst equal
    have restored : Adv.setAdvStr { s with appFlags := flags } adv = .ok { s with advStr := array,appFlags := flags } := by
      unfold Adv.setAdvStr
      rw [stored]
      rfl
    exact ⟨_,by simp only [Answerer.turn,restored]; rfl,flags,rfl,same⟩

theorem turnOther (about : t.about pair = false) (run : s.turn t = .ok (s',x)) (calm : ¬t.gathers s) : s.Alike pair s' := by
  cases t with
  | packets e =>
    have other : e.pair ≠ pair := fun same => by
      have wrong : (e.pair == pair) = true := beq_iff_eq.mpr same
      rw [show (e.pair == pair) = false from about] at wrong
      cases wrong
    exact (dealCases run calm).1 pair fun same => other same.symm
  | makeVfResBuf result => cases about
  | setAdvStr adv => cases about

theorem turnsAlike (alike : s.Alike pair u) (ran : s.turns ts = .ok (s',sent)) (calm : s.calm ts) :
    ∃ u',u.turns (ts.filter (Turn.about pair)) = .ok (u',sentAbout pair ts sent) ∧ s'.Alike pair u' := by
  induction ts generalizing s u sent with
  | nil =>
    cases ran
    exact ⟨u,rfl,alike⟩
  | cons t ts ih =>
    obtain ⟨s₁,x,rest,first,later,rfl⟩ := turnsCons ran
    obtain ⟨calm,after⟩ := calm
    cases about : t.about pair with
    | true =>
      obtain ⟨u₁,again,alike⟩ := turnAlike alike about first calm
      obtain ⟨u',others,last⟩ := ih alike later (after _ _ first)
      refine ⟨u',?_,last⟩
      rw [List.filter_cons_of_pos about,Answerer.turns,again]
      simp only [okBind,others,sentAbout,about,if_true]
      rfl
    | false =>
      have same := turnOther about first calm
      have alike : s₁.Alike pair u := by
        obtain ⟨flags,rfl,equal⟩ := alike
        obtain ⟨flags',rfl,equal'⟩ := same
        exact ⟨flags,rfl,fun side => (equal side).trans (equal' side).symm⟩
      obtain ⟨u',others,last⟩ := ih alike later (after _ _ first)
      refine ⟨u',?_,last⟩
      rw [List.filter_cons_of_neg (by rw [about]; decide),others]
      simp only [sentAbout,about]
      rfl

def vfTurn : Turn := .packets ⟨0,.client,false,[⟨ascii "GET /vf?a\r\n\r\n",[0]⟩],⟨[],[]⟩⟩
def shortTurn : Turn := .packets ⟨1,.client,false,[⟨ascii "abc",[0]⟩],⟨[],[]⟩⟩

def vfWhole : Bytes := vfResponse ++ (intText 0 ++ (crlf ++ crlf))

def vfAfter : Answerer := (({} : Answerer).setFlags 0 .client .dropData).setFlags 0 .server .dropData

theorem vfMade : ({} : Answerer).make .vf = .ok (filled bigVfBufMax vfWhole,vfWhole.length) := by
  have short : vfWhole.length < bigVfBufMax := by decide +kernel
  have head : ([] ++ vfResponse).length ≤ bigVfBufMax := by decide +kernel
  have none_ : bytesAt (List.replicate bigVfBufMax 0) 0 = .ok [] := bytesText List.nil_prefix rfl
  have first := memcpyText head
  have behind_ := sprintfText short
  have last := memcpyText (show (vfWhole ++ []).length ≤ bigVfBufMax by rw [List.append_nil]; exact short.le)
  rw [List.nil_append] at first
  rw [List.append_nil] at last
  rw [Answerer.make,ngxHttpMakeVfResponse,makeResponse]
  change memcpyAt (filled bigVfBufMax [],([] : Bytes).length) vfResponse >>= _ = _
  rw [first,okBind]
  change sprintfAt (filled bigVfBufMax vfResponse,vfResponse.length) (intText 0 ++ (crlf ++ crlf)) >>= _ = _
  rw [behind_,okBind]
  change bytesAt (List.replicate bigVfBufMax 0) 0 >>= _ = _
  rw [none_,okBind]
  exact last

theorem vfTurned : ({} : Answerer).turn vfTurn = .ok (vfAfter,⟨vfWhole,[]⟩) := by
  have plain : ({} : Answerer).appFlags 0 .client ≠ .proxyData := by decide
  have asked : ({} : Answerer).ask (ascii "GET /vf?a\r\n\r\n" ++ [0]) = .ok (.answer .vf .dropData .dropData) := by
    decide
  have long : 8 < (ascii "GET /vf?a\r\n\r\n").length := by decide
  have taken : (filled bigVfBufMax vfWhole).take vfWhole.length = vfWhole := filledHolds bigVfBufMax vfWhole
  unfold Answerer.turn vfTurn ngxHttpVfDeal1
  dsimp only
  rw [if_neg plain,if_pos long,asked,okBind]
  dsimp only
  rw [vfMade,okBind]
  dsimp only
  rw [taken]
  rfl

theorem twoTurned : ({} : Answerer).turns [vfTurn,shortTurn] = .ok (vfAfter,[⟨vfWhole,[]⟩,⟨[],ascii "abc"⟩]) := by
  rw [Answerer.turns,vfTurned]
  rfl

theorem twoCalm : ({} : Answerer).calm [vfTurn,shortTurn] := by
  refine ⟨fun gathers => (by cases gathers.2),fun s x run => ⟨fun gathers => ?_,fun _ _ _ => trivial⟩⟩
  rw [vfTurned] at run
  cases run
  cases gathers.2

/-- As long as nothing is gathered no connection notices another: it is sent what it is sent where it is alone with the
debug functions, and finds the flags and the buffer that it finds there. -/
theorem connectionsApart (pair : Nat) (ran : s.turns ts = .ok (s',sent)) (calm : s.calm ts) :
    ∃ u,s.turns (ts.filter (Turn.about pair)) = .ok (u,sentAbout pair ts sent) ∧ s'.Alike pair u :=
  turnsAlike (alikeRefl pair s) ran calm

theorem connectionsApart_two : ∃ u,({} : Answerer).turns [shortTurn] = .ok (u,[⟨[],ascii "abc"⟩]) ∧ vfAfter.Alike 1 u :=
  connectionsApart 1 twoTurned twoCalm

theorem loadStocked {result : LoadResult} (stocked : s.Stocked held) (run : makeVfResBuf s result = .ok s') :
    s'.Stocked (loaded held (.makeVfResBuf result)) := by
  cases result with
  | closed =>
    cases run
    exact stocked
  | failed =>
    obtain ⟨buf,-,run⟩ := bindOk run
    cases run
    exact (by decide : (-1 : Int) < 0)
  | read bytes =>
    obtain ⟨buf,-,run⟩ := bindOk run
    obtain ⟨buf',stored,run⟩ := bindOk run
    cases run
    refine ⟨rfl,?_⟩
    unfold blit at stored
    split at stored
    · cases stored
      rw [List.take_zero,List.nil_append]
      exact List.prefix_append _ _
    · cases stored

theorem turnStocked (stocked : s.Stocked held) (run : s.turn t = .ok (s',x)) (calm : ¬t.gathers s) : s'.Stocked (loaded held t) := by
  cases t with
  | packets e =>
    obtain ⟨-,-,buf,len,-⟩ := dealCases run calm
    unfold Answerer.Stocked at stocked ⊢
    rw [buf,len]
    exact stocked
  | makeVfResBuf result =>
    obtain ⟨s₁,load,same⟩ := mapOk run
    cases same
    exact loadStocked stocked load
  | setAdvStr adv =>
    obtain ⟨s₁,set,same⟩ := mapOk run
    cases same
    obtain ⟨array,-,same⟩ := mapOk set
    subst same
    exact stocked

theorem turnAnnounces (run : s.turn t = .ok (s',x)) (answered : x.own ≠ []) : ∃ body,Announces x.own body ∧ (body = ascii "#E" ∨
    0 ≤ s.bifVfLen ∧ s.bifVfLen ≤ s.bigVfBuf.length ∧ body = s.bigVfBuf.take s.bifVfLen.toNat) := by
  cases t with
  | packets e =>
    by_cases gathers : (Turn.packets e).gathers s
    · obtain ⟨some_,proxy⟩ := gathers
      have run : ngxHttpVfDeal1 s e = .ok (s',x) := run
      unfold ngxHttpVfDeal1 at run
      cases packets : e.packets with
      | nil => exact absurd packets some_
      | cons p ps =>
        rw [packets] at run
        dsimp only at run
        rw [if_pos proxy] at run
        exact absurd (gatherOwn _ _ run) answered
    · obtain ⟨-,-,-,-,none_ | ⟨reply,out,made,same⟩⟩ := dealCases run gathers
      · exact absurd none_ answered
      · rw [same]
        exact replyAnnounces made
  | makeVfResBuf result =>
    obtain ⟨s₁,-,same⟩ := mapOk run
    cases same
    exact absurd rfl answered
  | setAdvStr adv =>
    obtain ⟨s₁,-,same⟩ := mapOk run
    cases same
    exact absurd rfl answered

theorem turnsWhole (held : Option Bytes) (ran : s.turns ts = .ok (s',sent)) : ∀ i x,sent[i]? = some x → x.own ≠ [] → ∃ body,Announces x.own body ∧
    (s.Stocked held → s.calm (ts.take i) → body = ascii "#E" ∨ (ts.take i).foldl loaded held = some body) := by
  induction ts generalizing s held sent with
  | nil =>
    cases ran
    intro i x there
    cases there
  | cons t ts ih =>
    obtain ⟨s₁,y,rest,first,later,rfl⟩ := turnsCons ran
    intro i x there answered
    cases i with
    | zero =>
      cases there
      obtain ⟨body,announces,which⟩ := turnAnnounces first answered
      refine ⟨body,announces,fun stocked _ => which.imp_right fun ⟨some_,inside,same⟩ => ?_⟩
      cases held with
      | none =>
        have less : s.bifVfLen < 0 := stocked
        omega
      | some bytes =>
        obtain ⟨len,front⟩ := stocked
        rw [same,len,Int.toNat_natCast]
        exact congrArg some (List.prefix_iff_eq_take.mp front)
    | succ i =>
      obtain ⟨body,announces,which⟩ := ih (loaded held t) later i x there answered
      exact ⟨body,announces,fun stocked calm => which (turnStocked stocked first calm.1) (calm.2 _ _ first)⟩

/-- In every run what a player is answered is a whole message; as long as nothing was gathered its body is the file
that was loaded last, or the two bytes a range is probed with. -/
theorem answersWhole (ran : ({} : Answerer).turns ts = .ok (s',sent)) : ∀ i x,sent[i]? = some x → x.own ≠ [] →
    ∃ body,Announces x.own body ∧ (({} : Answerer).calm (ts.take i) →
      body = ascii "#E" ∨ (ts.take i).foldl loaded (some []) = some body) := by
  intro i x there answered
  obtain ⟨body,announces,which⟩ := turnsWhole (some []) ran i x there answered
  exact ⟨body,announces,which ⟨rfl,List.nil_prefix⟩⟩

theorem answersWhole_two : ∃ body,Announces vfWhole body ∧ (({} : Answerer).calm [] → body = ascii "#E" ∨ some [] = some body) :=
  answersWhole twoTurned 0 ⟨vfWhole,[]⟩ rfl (show vfWhole ≠ [] by decide)

end runs

end MipsElfExec.Adv
