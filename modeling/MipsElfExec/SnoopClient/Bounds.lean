import Mathlib.Data.List.Perm.Basic
import Mathlib.Logic.Function.Basic
import MipsElfExec.SnoopClient.Parser

/-! What an answer has to hold so that the parser keeps to it and to its own arrays: each part tells what it needs
of the text, and of what is done where it ends. -/
namespace MipsElfExec.SnoopClient.Memory
open CString Access

section fields

def MarkFits (found : Option Nat) (skip : Nat) (cur : Bytes) (rest : Bytes → Prop) : Prop :=
  ∀ k ∈ found,cur.drop (k + skip) ≠ [] ∧ rest (cur.drop (k + skip))

def FieldsFit (info : Bytes) : Prop :=
  MarkFits (strstr info (ascii "no")) ykTokenLenNo info fun cur =>
  let cur := (SnoopClient.ykVal cur).2
  MarkFits (strstr cur (ascii "size")) ykTokenLenSize cur fun cur =>
  let cur := (SnoopClient.ykVal cur).2
  MarkFits (strstr cur (ascii "seconds")) ykTokenLenSeconds cur fun cur =>
  let cur := (SnoopClient.ykVal (if cur.head? = some quote then cur.drop 1 else cur)).2
  MarkFits (strchr cur 107) ykTokenLenK cur fun cur =>
  let cur := (copyWhile keyByte (ykSegmentKLen - 1) cur).2
  MarkFits (strstr cur (ascii "k2")) ykTokenLenK2 cur fun _ => True

theorem markRule {cur : Bytes} {found : Checked (Option Bytes)} {place : Option Nat} {skip : Nat}
    {next : Bytes → Checked (Option SegmentInfo)} {rest : Bytes → Prop} {value : Bytes → Option SegmentInfo}
    {post : Option SegmentInfo → Prop} (ends : Ends cur) (search : found = .ok (place.map cur.drop))
    (outside : ¬Meets (next []) post) (inside : ∀ cur,Ends cur → (Meets (next cur) post ↔ rest cur ∧ post (value cur))) :
    Meets (mark found skip next) post ↔
      MarkFits place skip cur rest ∧ post ((place.map fun k => cur.drop (k + skip)) >>= value) := by
  unfold mark MarkFits
  cases place with
  | none => simp [search]
  | some k =>
    by_cases none_ : cur.drop (k + skip) = []
    · simp [search,none_,outside,-List.drop_eq_nil_iff]
    · simp [search,none_,inside _ (endsDrop ends none_),-List.drop_eq_nil_iff]

theorem scanRule {cur : Bytes} {p : Byte → Bool} (ends : Ends cur) (nul : p 0 = false) (len : Nat)
    {post : Bytes × Bytes → Prop} :
    Meets (scan p len cur) post ↔ post (copyWhile p len cur) := by
  rw [meetsScan,and_iff_right (endsScan ends nul len)]
  rfl

theorem endsCopied {cur : Bytes} {p : Byte → Bool} (ends : Ends cur) (nul : p 0 = false) (len : Nat) :
    Ends (copyWhile p len cur).2 := endsScanned ends nul len

theorem fieldsRule {info : Bytes} (ends : Ends info) {post : Option SegmentInfo → Prop} :
    Meets (segmentFields info) post ↔ FieldsFit info ∧ post (SnoopClient.ykCreateSegmentInfo info) := by
  have val : valDigit 0 = false := by decide
  have key : keyByte 0 = false := by decide
  refine markRule ends (if_pos (endsMem ends)) (by simp [ykVal,scan]) fun cur ends => ?_
  rw [meetsBind,ykVal,scanRule ends val]
  have ends := endsCopied ends val (ykValueLen - 1)
  refine markRule ends (if_pos (endsMem ends)) (by simp [ykVal,scan]) fun cur ends => ?_
  rw [meetsBind,ykVal,scanRule ends val]
  have ends := endsCopied ends val (ykValueLen - 1)
  refine markRule ends (if_pos (endsMem ends)) (by simp [ykVal,scan]) fun cur ends => ?_
  obtain ⟨b,more,rfl⟩ := List.exists_cons_of_ne_nil (endsSome ends)
  have ends : Ends (if b = quote then (b :: more).drop 1 else b :: more) := by
    split
    · rename_i same
      refine endsDrop ends fun none_ => ?_
      simp [Ends,same,show more = [] from none_,quote] at ends
    · exact ends
  simp only [deref,List.head?_cons,Option.some.injEq]
  rw [meetsBind,meetsOk,meetsBind,ykVal,scanRule ends val]
  have ends := endsCopied ends val (ykValueLen - 1)
  refine markRule ends (if_pos (endsMem ends)) (by simp [scan]) fun cur ends => ?_
  rw [meetsBind,scanRule ends key]
  have ends := endsCopied ends key (ykSegmentKLen - 1)
  refine markRule ends (if_pos (endsMem ends)) (by simp [scan]) fun cur ends => ?_
  rw [meetsBind,scanRule ends key,true_and]
  exact meetsPure _

end fields

section heap

def Heap.Sound (h : Heap) : Prop := h.allocated.Nodup ∧ ∀ p ∈ h.allocated,p < h.calls

structure Took (h h' : Heap) (new : List Nat) : Prop where
  spent : ∃ spent,h'.freed = spent ++ h.freed ∧ h'.allocated.Perm (new ++ spent ++ h.allocated)
  sound : h.Sound → h'.Sound

theorem tookNone (h : Heap) : Took h h [] := ⟨⟨[],rfl,.refl _⟩,id⟩

theorem Took.trans {h m h' : Heap} {a b : List Nat} (first : Took h m a) (next : Took m h' b) : Took h h' (a ++ b) := by
  obtain ⟨one,freed,took⟩ := first.spent
  obtain ⟨two,freed',took'⟩ := next.spent
  refine ⟨⟨two ++ one,by rw [freed',freed,List.append_assoc],took'.trans ?_⟩,next.sound ∘ first.sound⟩
  refine ((List.Perm.refl (b ++ two)).append took).trans ?_
  simp only [List.perm_iff_count,List.count_append]
  intro p
  omega

def Heap.miss (h : Heap) : Heap := { h with calls := h.calls + 1 }

def Heap.take (h : Heap) : Heap := { h with calls := h.calls + 1,allocated := h.calls :: h.allocated }

@[simp] theorem missCalls (h : Heap) : h.miss.calls = h.calls + 1 := rfl

@[simp] theorem takeCalls (h : Heap) : h.take.calls = h.calls + 1 := rfl

@[simp] theorem freeCalls (h : Heap) (p : Nat) : (h.free p).calls = h.calls := rfl

theorem mallocRuns (granted : Nat → Bool) (h : Heap) :
    h.malloc granted = if granted h.calls then (some h.calls,h.take) else (none,h.miss) := rfl

theorem tookMiss (h : Heap) : Took h h.miss [] :=
  ⟨⟨[],rfl,.refl _⟩,fun sound => ⟨sound.1,fun p mem => Nat.lt_succ_of_lt (sound.2 p mem)⟩⟩

theorem takeSound {h : Heap} (sound : h.Sound) : h.take.Sound := by
  refine ⟨List.nodup_cons.mpr ⟨fun mem => Nat.lt_irrefl _ (sound.2 _ mem),sound.1⟩,fun p mem => ?_⟩
  rcases List.mem_cons.mp mem with rfl | before
  · exact Nat.lt_succ_self _
  · exact Nat.lt_succ_of_lt (sound.2 p before)

theorem tookTake (h : Heap) : Took h h.take [h.calls] := ⟨⟨[],rfl,.refl _⟩,takeSound⟩

theorem tookBack (h : Heap) : Took h (h.take.free h.calls) [] := ⟨⟨[h.calls],rfl,.refl _⟩,takeSound⟩

end heap

section ids

theorem typeName (type : StreamType) : type.name.length = 3 := by cases type <;> rfl

theorem typeRule {ret : Bytes} {post : Option StreamType → Prop} :
    Meets (firstType ret streamTypes) post ↔ 3 ≤ ret.length ∧ post (typeAt ret) := by
  have first : ∀ type types,(Meets (firstType ret (type :: types)) post ↔
      3 ≤ ret.length ∧ post ((type :: types).find? fun type => type.name.isPrefixOf ret)) := by
    intro type types
    induction types generalizing type with
    | nil =>
      cases here : type.name.isPrefixOf ret with
      | true => simp [firstType,typeName,here]
      | false => simp [firstType,typeName,here]
    | cons next types ih =>
      cases here : type.name.isPrefixOf ret with
      | true => simp [firstType,typeName,here]
      | false =>
        rw [firstType,meetsBind,meetsMemcmp,here,typeName,List.find?_cons,here]
        simp [ih next]
  exact first .hd2 [.mp4,.hd3,.flv]

variable (granted : Nat → Bool) (leave : Option Bytes → List StreamType → Nat → Prop)

def IdsFit : Nat → Bytes → List StreamType → Nat → Prop
  | 0,_,types,calls => leave none types calls
  | left + 1,ret,types,calls => 3 ≤ ret.length ∧ match typeAt ret with
    | some type =>
      if granted calls then
        let ids := ret.drop ykTokenLenType
        ids.dropWhile (· != quote) ≠ [] ∧ (ids.takeWhile (· != quote)).length < ykStreamFileIdsLen ∧
          IdsFit left ((ids.dropWhile (· != quote)).drop ykTokenLenTypeEnd) (types ++ [type]) (calls + 1)
      else leave none types (calls + 1)
    | none => leave (if idsEnd.isPrefixOf ret then some (ret.drop 1) else none) types calls

variable {granted leave}

def Stream.Fresh (stream : Stream) : Prop := stream.segs = [] ∧ stream.streamfileids.length < ykStreamFileIdsLen

theorem idsExactly {left : Nat} {ret : Bytes} {types : List StreamType} {streams : List Stream} {h : Heap}
    {post : Option Bytes × List Stream × Heap → Prop}
    (ends : ∀ next made h',Took h h' (made.map Stream.addr) → (∀ stream ∈ made,stream.Fresh) → made.length ≤ left →
      (∀ r ∈ next,r ≠ [] ∧ r <:+ ret ∧ made.length < left) →
      (post (next,streams ++ made,h') ↔ leave next (types ++ made.map Stream.type) h'.calls)) :
    Meets (fileIdsLoop granted left ret streams h) post ↔ IdsFit granted leave left ret types h.calls := by
  induction left generalizing ret types streams h with
  | zero => simpa [fileIdsLoop,IdsFit] using ends none [] h (tookNone h) (by simp) (by simp) (by simp)
  | succ left ih =>
    unfold fileIdsLoop IdsFit
    rw [meetsBind,typeRule]
    refine and_congr_right fun bytes => ?_
    cases here : typeAt ret with
    | none =>
      have mark : idsEnd.length ≤ ret.length := bytes
      simp only [meetsBind,meetsMemcmp,mark,true_and]
      cases last : idsEnd.isPrefixOf ret with
      | true =>
        have goes : ret.drop 1 ≠ [] := by
          rw [ne_eq,List.drop_eq_nil_iff]
          omega
        have suffix := List.drop_suffix 1 ret
        have rest := ends (some (ret.drop 1)) [] h (tookNone h) (by simp) (by simp) fun r mem => by
          cases mem
          exact ⟨goes,suffix,Nat.succ_pos left⟩
        simpa using rest
      | false => simpa using ends none [] h (tookNone h) (by simp) (by simp) (by simp)
    | some type =>
      cases grants : granted h.calls with
      | false =>
        simpa [ykCreateStreamInfo,mallocRuns,grants] using ends none [] h.miss (tookMiss h) (by simp) (by simp) (by simp)
      | true =>
        simp only [ykCreateStreamInfo,mallocRuns,grants,if_true,meetsBind,meetsCopyTo]
        refine and_congr_right fun closed => and_congr_right fun short => ih fun next made h' took fresh few tail => ?_
        have rest := ends next (⟨h.calls,type,(ret.drop ykTokenLenType).takeWhile (· != quote),0,[]⟩ :: made) h'
          ((tookTake h).trans took) (by simpa [Stream.Fresh,short] using fresh) (by simpa using few) fun r mem =>
            ⟨(tail r mem).1,((tail r mem).2.1.trans (List.drop_suffix _ _)).trans
              ((List.dropWhile_suffix _).trans (List.drop_suffix _ _)),by simpa using (tail r mem).2.2⟩
        simpa using rest

theorem seedRule {cur : Bytes} (text : Terminated cur) {post : Option (Bytes × Bytes) → Prop} :
    Meets (ykParsePlSeed cur) post ↔
      MarkFits (strstr cur (ascii "seed")) ykTokenLenSeed cur (fun _ => True) ∧ post (SnoopClient.ykParsePlSeed cur) := by
  unfold ykParsePlSeed MarkFits SnoopClient.ykParsePlSeed after
  rw [meetsBind,meetsStrstr,and_iff_right (endsMem (terminatedEnds text))]
  cases strstr cur (ascii "seed") with
  | none => simp
  | some k =>
    by_cases none_ : cur.drop (k + ykTokenLenSeed) = []
    · simp [none_,scan,-List.drop_eq_nil_iff]
    · have ends := endsDrop (terminatedEnds text) none_
      have digits := @scanRule _ (fun b : Byte => b != 44 && isdigit b) ends (by decide) (ykSeedStringLen - 1)
        fun v => post (some v)
      simpa [none_,-meetsScan,-List.drop_eq_nil_iff] using digits

def IdsTextFits (granted : Nat → Bool) (leave : Option Bytes → List StreamType → Nat → Prop) (cur : Bytes)
    (calls : Nat) : Prop :=
  MarkFits (strstr cur (ascii "streamfileids")) streamfileidsOpen.length cur fun ret =>
    IdsFit granted leave ykStreamTypeTotal ret [] calls

theorem idsRule {cur : Bytes} (text : Terminated cur) {h : Heap} {post : Option Bytes × List Stream × Heap → Prop}
    (missing : post (none,[],h))
    (ends : ∀ next made h',Took h h' (made.map Stream.addr) → (∀ stream ∈ made,stream.Fresh) → made.length ≤ ykStreamTypeTotal →
      (∀ r ∈ next,r ≠ [] ∧ r <:+ cur ∧ made.length < ykStreamTypeTotal) →
      (post (next,made,h') ↔ leave next (made.map Stream.type) h'.calls)) :
    Meets (ykParsePlStreamfileids granted cur h) post ↔ IdsTextFits granted leave cur h.calls := by
  unfold ykParsePlStreamfileids IdsTextFits MarkFits
  rw [meetsBind,meetsStrstr,and_iff_right (endsMem (terminatedEnds text))]
  cases strstr cur (ascii "streamfileids") with
  | none => simpa using missing
  | some k =>
    have rest := @idsExactly granted leave ykStreamTypeTotal (cur.drop (k + streamfileidsOpen.length)) [] [] h post
      fun next made h' took fresh few tail => by
        simpa using ends next made h' took fresh few fun r mem =>
          ⟨(tail r mem).1,(tail r mem).2.1.trans (List.drop_suffix _ _),(tail r mem).2.2⟩
    have some_ : IdsFit granted leave ykStreamTypeTotal (cur.drop (k + streamfileidsOpen.length)) [] h.calls →
        cur.drop (k + streamfileidsOpen.length) ≠ [] := by
      intro fit none_
      rw [none_] at fit
      exact absurd fit.1 (by decide)
    simpa [rest,-List.drop_eq_nil_iff] using some_

theorem idsMono {left calls calls' : Nat} {ret : Bytes} {types types' : List StreamType}
    (fit : IdsFit (fun _ => true) (fun _ _ _ => True) left ret types calls) :
    IdsFit granted (fun _ _ _ => True) left ret types' calls' := by
  induction left generalizing ret types types' calls calls' with
  | zero => trivial
  | succ left ih =>
    unfold IdsFit at fit ⊢
    refine ⟨fit.1,?_⟩
    cases here : typeAt ret with
    | none => trivial
    | some type =>
      simp only [here,if_true] at fit
      cases granted calls' with
      | false => trivial
      | true => exact ⟨fit.2.1,fit.2.2.1,ih fit.2.2.2⟩

end ids

def SeedKeeps (text : Bytes) : Prop :=
  Meets (ykParsePlSeed (stringAt text)) fun r => ∀ found ∈ r,found.1.length < ykSeedStringLen

def IdsKeep (text : Bytes) : Prop := ∀ granted h,Meets (ykParsePlStreamfileids granted (stringAt text) h) fun r =>
  r.2.1.length ≤ ykStreamTypeTotal ∧ ∀ stream ∈ r.2.1,stream.streamfileids.length < ykStreamFileIdsLen

theorem idsSafe (granted : Nat → Bool) (text : Bytes) (h : Heap) :
    (Meets (ykParsePlStreamfileids granted (stringAt text) h) fun r => r.2.1.length ≤ ykStreamTypeTotal ∧
      ∀ stream ∈ r.2.1,stream.streamfileids.length < ykStreamFileIdsLen) ↔
    IdsTextFits granted (fun _ _ _ => True) (stringAt text) h.calls :=
  idsRule (terminatedString text) (by simp) fun _ _ _ _ fresh few _ =>
    iff_true_intro ⟨few,fun stream mem => (fresh stream mem).2⟩

/-- The seed is parsed safely exactly from a text that goes on behind its mark, the ids from one with short closed entries. -/
theorem idsKeepExactly (text : Bytes) : SeedKeeps text ∧ IdsKeep text ↔
    MarkFits (strstr (stringAt text) (ascii "seed")) ykTokenLenSeed (stringAt text) (fun _ => True) ∧
    IdsTextFits (fun _ => true) (fun _ _ _ => True) (stringAt text) 0 := by
  refine and_congr ?_ ⟨fun keep => ?_,fun fit granted h => ?_⟩
  · unfold SeedKeeps
    rw [seedRule (terminatedString text),and_iff_left]
    intro v mem
    obtain ⟨ret,-,rfl⟩ := Option.map_eq_some_iff.mp mem
    exact Nat.lt_succ_of_le (List.length_take_le _ _)
  · exact (idsSafe _ text {}).mp (keep (fun _ => true) {})
  · exact (idsSafe granted text h).mpr fun k place => ⟨(fit k place).1,idsMono (fit k place).2⟩

def seedOnly : Bytes := ascii "seed"

def unclosedIds : Bytes := ascii "streamfileids\":\x7b\"flv\":\"40*32"

theorem idsOverrun : ykParsePlSeed (stringAt seedOnly) = .error .read ∧
    ykParsePlStreamfileids (fun _ => true) (stringAt unclosedIds) {} = .error .read ∧
    ¬(SeedKeeps seedOnly ∧ IdsKeep seedOnly) ∧ ¬(SeedKeeps unclosedIds ∧ IdsKeep unclosedIds) := by
  have seed : ykParsePlSeed (stringAt seedOnly) = .error .read := by decide
  have ids : ykParsePlStreamfileids (fun _ => true) (stringAt unclosedIds) {} = .error .read := by decide
  refine ⟨seed,ids,fun keep => ?_,fun keep => ?_⟩
  · have safe := keep.1
    simp [SeedKeeps,seed] at safe
  · have safe := keep.2 (fun _ => true) {}
    simp [ids] at safe

section segments
variable (granted : Nat → Bool) (stop : Option Bytes) (leave : Option Bytes → Nat → Nat → Prop)

def PassFits (ret : Bytes) (cnt calls : Nat) (store : Bytes → Prop) : Prop :=
  if isBefore ret stop then
    let text := (ret.takeWhile (· != 125)).take ykSegInfoLen
    let info := text ++ List.replicate (ykSegInfoLen - text.length) 0
    text.length < ret.length ∧
    if granted calls then
      text.length < ykSegInfoLen ∧ FieldsFit info ∧
      if (SnoopClient.ykCreateSegmentInfo info).isSome then store (ret.drop (text.length + ykTokenLenSegEnd))
      else leave none cnt (calls + 1)
    else leave none cnt (calls + 1)
  else leave (some ret) cnt calls

def SegsFit : Nat → Bytes → Nat → Nat → Prop
  | 0,ret,cnt,calls => PassFits granted stop leave ret cnt calls fun _ => False
  | room + 1,ret,cnt,calls => PassFits granted stop leave ret cnt calls fun ret => SegsFit room ret (cnt + 1) (calls + 1)

variable {granted stop leave}

theorem createRule {info : Bytes} (h : Heap) {post : Option Segment × Heap → Prop} :
    Meets (ykCreateSegmentInfo granted h info) post ↔
      if granted h.calls then Meets (segmentFields info) fun values => match values with
        | none => post (none,h.take.free h.calls)
        | some values => post (some ⟨h.calls,none,values⟩,h.take)
      else post (none,h.miss) := by
  unfold ykCreateSegmentInfo
  cases grants : granted h.calls with
  | false => simp [mallocRuns,grants]
  | true =>
    simp only [mallocRuns,grants,if_true,meetsBind]
    refine meetsCongr fun values _ => ?_
    cases values <;> simp

theorem copyEnds {copy : Bytes} (room : copy.length < ykSegInfoLen) :
    Ends (copy ++ List.replicate (ykSegInfoLen - copy.length) 0) := by
  obtain ⟨k,size⟩ := Nat.exists_eq_add_of_lt room
  rw [size,show copy.length + k + 1 - copy.length = k + 1 by omega,List.replicate_succ',← List.append_assoc]
  simp [Ends]

theorem copyRule {ret copy : Bytes} (text : Terminated ret) (front : copy <+: ret) (short : copy.length < ret.length) (h : Heap)
    {post : Option Segment × Heap → Prop} :
    Meets (ykCreateSegmentInfo granted h (copy ++ List.replicate (ykSegInfoLen - copy.length) 0)) post ↔
      if granted h.calls then
        copy.length < ykSegInfoLen ∧ FieldsFit (copy ++ List.replicate (ykSegInfoLen - copy.length) 0) ∧
        match SnoopClient.ykCreateSegmentInfo (copy ++ List.replicate (ykSegInfoLen - copy.length) 0) with
        | none => post (none,h.take.free h.calls)
        | some values => post (some ⟨h.calls,none,values⟩,h.take)
      else post (none,h.miss) := by
  rw [createRule]
  split
  · rcases Nat.lt_or_ge copy.length ykSegInfoLen with room | full
    · rw [fieldsRule (copyEnds room),and_iff_right room]
    · have clean : (0 : Byte) ∉ copy := fun mem => terminatedTake text short (List.prefix_iff_eq_take.mp front ▸ mem)
      have none_ : ykSegInfoLen - copy.length = 0 := Nat.sub_eq_zero_of_le full
      simp [none_,segmentFields,mark,clean,Nat.not_lt.mpr full]
  · rfl

theorem passRule {owner : Nat} {ret : Bytes} {segs : List Segment} {cnt : Nat} {h : Heap} {place : Bytes → Prop}
    {store : Segment → Bytes → Heap → Checked (Option Bytes × List Segment × Heap)}
    {post : Option Bytes × List Segment × Heap → Prop} (text : ret ≠ [] → Terminated ret)
    (ends : ∀ next h',Took h h' [] → (∀ r ∈ next,r <:+ ret) → (post (next,segs,h') ↔ leave next cnt h'.calls))
    (stores : ∀ seg ret' h',Took h h' [seg.addr] → seg.stream = some owner → ret' <:+ ret → h'.calls = h.calls + 1 →
      (Meets (store seg ret' h') post ↔ place ret')) :
    Meets (segPass granted owner stop ret segs h store) post ↔ PassFits granted stop leave ret cnt h.calls place := by
  unfold segPass PassFits
  split
  · rename_i before
    have text := text (by rintro rfl; cases stop <;> simp [isBefore] at before)
    rw [meetsBind,meetsScan]
    refine and_congr_right fun short => ?_
    rw [meetsBind,copyRule text ((List.take_prefix _ _).trans (List.takeWhile_prefix _)) short]
    cases granted h.calls with
    | false => simpa using ends none h.miss (tookMiss h) (by simp)
    | true =>
      refine and_congr_right fun _ => and_congr_right fun _ => ?_
      generalize (ret.takeWhile (· != 125)).take ykSegInfoLen = copy
      cases SnoopClient.ykCreateSegmentInfo (copy ++ List.replicate (ykSegInfoLen - copy.length) 0) with
      | none => simpa using ends none (h.take.free h.calls) (tookBack h) (by simp)
      | some values =>
        simpa using stores _ (ret.drop (copy.length + ykTokenLenSegEnd)) h.take (tookTake h) rfl (List.drop_suffix _ _) rfl
  · simpa using ends (some ret) h (tookNone h) (by simp)

def segsAfter (segs : List Segment) (cnt : Nat) (made : List Segment) : List Segment :=
  segs.take cnt ++ made ++ segs.drop (cnt + made.length)

@[simp] theorem segsAfterNone (segs : List Segment) (cnt : Nat) : segsAfter segs cnt [] = segs := by simp [segsAfter]

theorem segsAfterStored {segs made : List Segment} {cnt : Nat} (seg : Segment) (held : cnt ≤ segs.length) :
    segsAfter (segStore segs cnt seg) (cnt + 1) made = segsAfter segs cnt (seg :: made) := by
  have size : (segs.take cnt ++ [seg]).length = cnt + 1 := by simp [held]
  unfold segsAfter segStore
  rw [List.append_cons,List.take_left' size,← List.drop_drop,List.drop_left' size,List.drop_drop]
  simp [Nat.add_comm,Nat.add_left_comm]

theorem segsExactly {owner room cnt : Nat} {ret : Bytes} {segs : List Segment} {h : Heap}
    {post : Option Bytes × List Segment × Heap → Prop} (text : ret ≠ [] → Terminated ret) (held : cnt ≤ segs.length)
    (places : cnt + room = ykStreamSegsMax)
    (ends : ∀ next made h',Took h h' (made.map Segment.addr) → (∀ seg ∈ made,seg.stream = some owner) →
      made.length ≤ room → (∀ r ∈ next,r <:+ ret) →
      (post (next,segsAfter segs cnt made,h') ↔ leave next (cnt + made.length) h'.calls)) :
    Meets (segsLoop granted owner stop room ret segs cnt h) post ↔ SegsFit granted stop leave room ret cnt h.calls := by
  induction room generalizing ret segs cnt h with
  | zero =>
    refine passRule text (fun next h' took suffix => ?_) fun seg ret' h' _ _ _ _ => by simp
    simpa using ends next [] h' took (by simp) (by simp) suffix
  | succ room ih =>
    refine passRule text (fun next h' took suffix => ?_) fun seg ret' h' took owned suffix calls => ?_
    · simpa using ends next [] h' took (by simp) (by simp) suffix
    · rw [if_neg (by omega),← calls]
      refine ih (fun some_ => ?_) (by simp [segStore]; omega) (by omega) fun next made last more stream few tail => ?_
      · exact terminatedSuffix (text fun none_ => some_ (by simpa [none_] using suffix)) suffix some_
      · have all := ends next (seg :: made) last (took.trans more) (by simp [owned]; exact stream) (by simp; omega)
          fun r mem => (tail r mem).trans suffix
        rw [segsAfterStored seg held]
        simpa [Nat.add_assoc,Nat.add_comm 1] using all

theorem passAnd {L : Prop} {ret : Bytes} {cnt calls : Nat} {store store' : Bytes → Prop}
    (stores : ∀ ret,store' ret ↔ L ∧ store ret) :
    PassFits granted stop (fun next cnt calls => L ∧ leave next cnt calls) ret cnt calls store' ↔
      L ∧ PassFits granted stop leave ret cnt calls store := by
  simp only [PassFits,stores]
  split_ifs <;> tauto

theorem segsAnd {L : Prop} {room cnt calls : Nat} {ret : Bytes} :
    SegsFit granted stop (fun next cnt calls => L ∧ leave next cnt calls) room ret cnt calls ↔
      L ∧ SegsFit granted stop leave room ret cnt calls := by
  induction room generalizing ret cnt calls with
  | zero => exact passAnd fun ret => by simp
  | succ room ih => exact passAnd fun ret => ih

theorem passMono {leave' : Option Bytes → Nat → Nat → Prop} {ret : Bytes}
    {cnt calls calls' : Nat} {store store' : Bytes → Prop} (none_ : ∀ cnt calls,leave' none cnt calls)
    (some_ : ∀ r cnt calls calls',leave (some r) cnt calls → leave' (some r) cnt calls') (stores : ∀ r,store r → store' r)
    (fit : PassFits (fun _ => true) stop leave ret cnt calls store) : PassFits granted stop leave' ret cnt calls' store' := by
  unfold PassFits at fit ⊢
  split
  · rename_i before
    simp only [before,if_true] at fit
    refine ⟨fit.1,?_⟩
    cases granted calls' with
    | false => exact none_ cnt _
    | true =>
      refine ⟨fit.2.1,fit.2.2.1,?_⟩
      have next := fit.2.2.2
      split
      · rename_i created
        rw [if_pos created] at next
        exact stores _ next
      · exact none_ cnt _
  · rename_i behind
    rw [if_neg behind] at fit
    exact some_ _ _ _ _ fit

theorem segsMono {leave' : Option Bytes → Nat → Nat → Prop} {ret : Bytes}
    {room cnt calls calls' : Nat} (none_ : ∀ cnt calls,leave' none cnt calls)
    (some_ : ∀ r cnt calls calls',leave (some r) cnt calls → leave' (some r) cnt calls')
    (fit : SegsFit (fun _ => true) stop leave room ret cnt calls) : SegsFit granted stop leave' room ret cnt calls' := by
  induction room generalizing ret cnt calls calls' with
  | zero => exact passMono none_ some_ (fun _ => id) fit
  | succ room ih => exact passMono none_ some_ (fun _ => ih) fit

end segments

section lists

def heldOf (streams : List Stream) (type : StreamType) : Option Nat :=
  (streams.find? fun stream => stream.type == type).map fun stream => stream.segs.length

theorem findStream (streams : List Stream) (type : StreamType) :
    (((ykFindStreamInfo streams type).bind fun i => streams[i]?.map (i,·)) = none ∧ heldOf streams type = none) ∨
    ∃ i stream,((ykFindStreamInfo streams type).bind fun i => streams[i]?.map (i,·)) = some (i,stream) ∧
      streams[i]? = some stream ∧ heldOf streams type = some stream.segs.length ∧
      ∀ segs,heldOf (streams.set i { stream with segs := segs }) =
        Function.update (heldOf streams) type (some segs.length) := by
  induction streams with
  | nil => exact .inl ⟨rfl,rfl⟩
  | cons stream streams ih =>
    by_cases same : stream.type = type
    · right
      refine ⟨0,stream,by simp [ykFindStreamInfo,List.findIdx?_cons,same],rfl,by simp [heldOf,same],fun segs => ?_⟩
      funext other
      by_cases here : other = type
      · simp [heldOf,here,same]
      · simp [heldOf,here,same,Ne.symm here]
    · have shift : ((ykFindStreamInfo (stream :: streams) type).bind fun i => (stream :: streams)[i]?.map (i,·)) =
          ((ykFindStreamInfo streams type).bind fun i => streams[i]?.map (i,·)).map fun found => (found.1 + 1,found.2) := by
        unfold ykFindStreamInfo
        rw [List.findIdx?_cons,if_neg (by simpa using same)]
        cases streams.findIdx? fun stream => stream.type == type with
        | none => rfl
        | some i => simp [Function.comp_def]
      have behind : heldOf (stream :: streams) type = heldOf streams type := by simp [heldOf,same]
      rw [shift,behind]
      rcases ih with ⟨none_,missing⟩ | ⟨i,found,here,place,held,update⟩
      · exact .inl ⟨by rw [none_]; rfl,missing⟩
      · refine .inr ⟨i + 1,found,by rw [here]; rfl,place,held,fun segs => ?_⟩
        funext other
        have at_ := congrFun (update segs) other
        by_cases first : stream.type = other
        · have other_ : other ≠ type := fun eq => same (first.trans eq)
          simp [heldOf,first,other_]
        · by_cases it : other = type
          · simpa [heldOf,first,it,same] using at_
          · simpa [heldOf,first,it] using at_

variable (granted : Nat → Bool) (strict : Prop)

def stopOf (ret : Bytes) : Option Bytes := (strchr ret 93).map ret.drop

def ListsFit : Nat → Bytes → (StreamType → Option Nat) → Nat → Prop
  | 0,_,_,_ => False
  | fuel + 1,ret,held,calls => 3 ≤ ret.length ∧ ∀ type ∈ typeAt ret,∀ had ∈ held type,
    ret.drop ykTokenLenType ≠ [] ∧
    SegsFit granted (stopOf (ret.drop ykTokenLenType)) (fun next cnt calls => (strict → had = 0 ∨ cnt = 0) ∧
      ∀ ret ∈ next,ListsFit fuel (ret.drop ykTokenLenSegEnd) (Function.update held type (some (max had cnt))) calls)
      ykStreamSegsMax (ret.drop ykTokenLenType) 0 calls

variable {granted strict} {inv side : List Stream → Heap → Prop}

def ListKeeps (strict : Prop) (inv side : List Stream → Heap → Prop) : Prop :=
  ∀ (streams : List Stream) (i : Nat) (stream : Stream) (made : List Segment) (h h' : Heap),
    side streams h → streams[i]? = some stream → Took h h' (made.map Segment.addr) →
    (∀ seg ∈ made,seg.stream = some stream.addr) → made.length ≤ ykStreamSegsMax →
    side (streams.set i { stream with segs := segsAfter stream.segs 0 made }) h' ∧
    (inv (streams.set i { stream with segs := segsAfter stream.segs 0 made }) h' ↔
      inv streams h ∧ (strict → stream.segs.length = 0 ∨ made.length = 0))

theorem listsExactly (step : ListKeeps strict inv side) {fuel : Nat} {ret : Bytes} {streams : List Stream} {h : Heap}
    (text : ret ≠ [] → Terminated ret) (enough : ret.length < fuel) (holds : side streams h) :
    Meets (plSegsLoop granted fuel ret streams h) (fun r => inv r.2.1 r.2.2) ↔
      inv streams h ∧ ListsFit granted strict fuel ret (heldOf streams) h.calls := by
  induction fuel generalizing ret streams h with
  | zero => omega
  | succ fuel ih =>
    unfold plSegsLoop ListsFit
    rw [meetsBind,typeRule,and_left_comm]
    refine and_congr_right fun bytes => ?_
    have whole : ret ≠ [] := by
      rintro rfl
      cases bytes
    cases here : typeAt ret with
    | none =>
      have mark : segsEnd.length ≤ ret.length := bytes
      simp [mark]
    | some type =>
      rcases findStream streams type with ⟨none_,missing⟩ | ⟨i,stream,found,place,held,update⟩
      · simp [none_,missing]
      · simp only [found,held,Option.mem_def,Option.some.injEq,forall_eq']
        by_cases none_ : ret.drop ykTokenLenType = []
        · simp [none_,ykParsePlSegsDo]
        · have inside := terminatedSuffix (text whole) (List.drop_suffix _ _) none_
          rw [and_iff_right none_,← segsAnd]
          simp only [ykParsePlSegsDo,meetsBind,meetsStrchr,and_iff_right (endsMem (terminatedEnds inside)),bind_assoc]
          refine segsExactly (fun _ => inside) (Nat.zero_le _) (Nat.zero_add _) fun next made h' took owned few tail => ?_
          obtain ⟨kept,same⟩ := step streams i stream made h h' holds place took owned few
          have shape := update (segsAfter stream.segs 0 made)
          have count : (segsAfter stream.segs 0 made).length = max stream.segs.length made.length := by
            simp [segsAfter]
            omega
          rw [count] at shape
          cases next with
          | none => simpa using same
          | some next =>
            have part := tail next rfl
            have less := part.length_le
            have size := List.length_drop (i := ykTokenLenType) (l := ret)
            have skip : ykTokenLenType = 6 := rfl
            have shorter := List.length_pos_iff.mpr none_
            have tail : next.drop ykTokenLenSegEnd <:+ ret :=
              ((List.drop_suffix _ next).trans part).trans (List.drop_suffix _ ret)
            have rest := ih (fun some_ => terminatedSuffix (text whole) tail some_) (by rw [List.length_drop]; omega) kept
            rw [shape] at rest
            simpa [same,and_assoc] using rest

theorem listsMono {fuel calls calls' : Nat} {ret : Bytes} {held : StreamType → Option Nat}
    (fit : ListsFit (fun _ => true) False fuel ret held calls) : ListsFit granted False fuel ret held calls' := by
  induction fuel generalizing ret held calls calls' with
  | zero => exact fit
  | succ fuel ih =>
    refine ⟨fit.1,fun type here had place => ⟨(fit.2 type here had place).1,?_⟩⟩
    refine segsMono (fun cnt calls => by simp) (fun r cnt calls calls' next => ⟨False.elim,fun ret mem => ?_⟩)
      (fit.2 type here had place).2
    exact ih (next.2 ret mem)

def SegsTextFits (granted : Nat → Bool) (strict : Prop) (cur : Bytes) (held : StreamType → Option Nat) (calls : Nat) : Prop :=
  ∀ k ∈ strstr cur (ascii "segs"),
    ListsFit granted strict ((cur.drop (k + ykTokenLenSegs)).length + 1) (cur.drop (k + ykTokenLenSegs)) held calls

theorem segsRule (step : ListKeeps strict inv side) {cur : Bytes} {streams : List Stream} {h : Heap}
    (text : Terminated cur) (holds : side streams h) :
    Meets (ykParsePlSegs granted cur streams h) (fun r => inv r.2.1 r.2.2) ↔
      inv streams h ∧ SegsTextFits granted strict cur (heldOf streams) h.calls := by
  unfold ykParsePlSegs SegsTextFits
  rw [meetsBind,meetsStrstr,and_iff_right (endsMem (terminatedEnds text))]
  cases strstr cur (ascii "segs") with
  | none => simp
  | some k =>
    have suffix := List.drop_suffix (k + ykTokenLenSegs) cur
    simpa using listsExactly step (fun some_ => terminatedSuffix text suffix some_) (Nat.lt_succ_self _) holds

end lists

def SegsKeep (text : Bytes) (streams : List Stream) : Prop := ∀ granted h,
  Meets (ykParsePlSegs granted (stringAt text) streams h) fun r => ∀ stream ∈ r.2.1,stream.segs.length ≤ ykStreamSegsMax

theorem setSplit {α : Type} {xs : List α} {i : Nat} {x : α} (place : xs[i]? = some x) :
    ∃ front back,xs = front ++ x :: back ∧ ∀ y,xs.set i y = front ++ y :: back := by
  obtain ⟨inside,rfl⟩ := List.getElem?_eq_some_iff.mp place
  refine ⟨xs.take i,xs.drop (i + 1),?_,fun y => ?_⟩
  · simp
  · rw [List.set_eq_take_append_cons_drop,if_pos inside]

theorem fewStep :
    ListKeeps False (fun streams _ => ∀ stream ∈ streams,stream.segs.length ≤ ykStreamSegsMax) fun _ _ => True := by
  intro streams i stream made _ _ _ place _ _ room
  obtain ⟨front,back,rfl,set⟩ := setSplit place
  have size : (segsAfter stream.segs 0 made).length ≤ ykStreamSegsMax ↔ stream.segs.length ≤ ykStreamSegsMax := by
    simp [segsAfter]
    omega
  simp only [set,List.forall_mem_append,List.forall_mem_cons,size]
  simp

/-- The segments are parsed safely exactly from a text whose lists fit. -/
theorem segsKeepExactly (text : Bytes) {streams : List Stream} (few : ∀ stream ∈ streams,stream.segs.length ≤ ykStreamSegsMax) :
    SegsKeep text streams ↔ SegsTextFits (fun _ => true) False (stringAt text) (heldOf streams) 0 := by
  have rule := fun granted h => @segsRule granted _ _ _ fewStep (stringAt text) streams h (terminatedString text) trivial
  constructor
  · intro keep
    exact ((rule (fun _ => true) {}).mp (keep _ _)).2
  · intro fit granted h
    exact (rule granted h).mpr ⟨few,fun k place => listsMono (fit k place)⟩

def openList : Bytes := ascii "segs\":\x7b\"flv\":[x]"

theorem segsKeepOne : (∀ stream ∈ [Stream.mk 0 .flv [] 0 []],stream.segs.length ≤ ykStreamSegsMax) ∧
    (SegsKeep openList [⟨0,.flv,[],0,[]⟩] ↔
      SegsTextFits (fun _ => true) False (stringAt openList) (heldOf [⟨0,.flv,[],0,[]⟩]) 0) :=
  ⟨by simp,segsKeepExactly openList (by simp)⟩

theorem segsOverrun : ykParsePlSegs (fun _ => true) (stringAt openList) [⟨0,.flv,[],0,[]⟩] {} = .error .read ∧
    ¬SegsKeep openList [⟨0,.flv,[],0,[]⟩] := by
  have segs : ykParsePlSegs (fun _ => true) (stringAt openList) [⟨0,.flv,[],0,[]⟩] {} = .error .read := by decide
  refine ⟨segs,fun keep => ?_⟩
  have safe := keep (fun _ => true) {}
  simp [segs] at safe

end MipsElfExec.SnoopClient.Memory
