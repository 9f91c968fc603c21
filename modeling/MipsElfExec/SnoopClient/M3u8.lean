import MipsElfExec.SnoopClient.HttpSession
import MipsElfExec.Snooping.Key

/-! The walk over an m3u8 playlist: each call of the parser looks for a URL and for the place where the next entry
begins, and what it found goes to the snooping module. -/
namespace MipsElfExec.SnoopClient
open CString Access Snooping

def fileTag : Bytes := ascii "file="
def discontinuityTag : Bytes := ascii "#EXT-X-DISCONTINUITY"

def sohuParseM3u8Response (curr : Bytes) : Checked (Option Bytes × Bytes) := do
  let some curr ← strstrChecked curr httpUrlPrefix | return (none,[])
  let curr := curr.drop httpUrlPrefix.length
  let some p ← strstrChecked curr fileTag | return (none,[])
  let p ← skip (fun b => b != 38 && b != 0) p
  let len := curr.length - p.length
  let fileUrl := if httpSpUrlLenMax ≤ len then [] else cstr (curr.take len)
  let ret ← strstrChecked curr discontinuityTag
  return (ret,fileUrl)

-- The URLs that are handed over. There are no more calls than bytes, so that more fuel changes nothing.
def m3u8Loop : Nat → Bytes → Checked (List Bytes)
  | 0,_ => .error .endless
  | fuel + 1,curr => do
    let (next,fileUrl) ← sohuParseM3u8Response curr
    match next with
    | none => return [fileUrl]
    | some curr => return fileUrl :: (← m3u8Loop fuel curr)

def scGetSohuVideoM3u8 (response : Bytes) : Checked (List Bytes) := m3u8Loop (response.length + 1) response

def isBreak (b : Byte) : Bool := b == 10 || b == 13

structure Entry where
  before : Bytes
  url : Bytes
  behind : Bytes
  text : (0 : Byte) ∉ before ∧ (0 : Byte) ∉ url ∧ (0 : Byte) ∉ behind
  opens : search httpUrlPrefix (before ++ httpUrlPrefix) = some before.length
  line : ∀ b ∈ url,isBreak b = false
  ends : behind.head?.all isBreak = true
  whole : search discontinuityTag (url ++ behind) = none

inductive M3u8 where
  | tail (text : Bytes) (clean : (0 : Byte) ∉ text) (none_ : search httpUrlPrefix text = none)
  | last (entry : Entry)
  | more (entry : Entry) (line : entry.behind.getLast? = some 10) (rest : M3u8)

def M3u8.text : M3u8 → Bytes
  | .tail text _ _ => text
  | .last e => e.before ++ (httpUrlPrefix ++ (e.url ++ e.behind))
  | .more e _ rest => e.before ++ (httpUrlPrefix ++ (e.url ++ (e.behind ++ (discontinuityTag ++ rest.text))))

def M3u8.urls : M3u8 → List Bytes
  | .tail .. => []
  | .last e => [e.url]
  | .more e _ rest => e.url :: rest.urls

def fileUrlOf (s : Bytes) : Option Bytes := (search fileTag s).map fun k => s.take k ++ (s.drop k).takeWhile (· ≠ 38)

def short (url : Bytes) : Bool := url.length < httpSpUrlLenMax

def M3u8.wanted (m : M3u8) : List Bytes := (m.urls.filterMap fileUrlOf).filter short

def handedUrl (s : Bytes) : Bytes := if short s then s else []

def M3u8.handed : M3u8 → List Bytes
  | .tail .. => [[]]
  | .last e => [((fileUrlOf (e.url ++ e.behind)).map handedUrl).getD []]
  | .more e _ rest =>
    match fileUrlOf (e.url ++ (e.behind ++ (discontinuityTag ++ rest.text))) with
    | none => [[]]
    | some s => handedUrl s :: rest.handed

section walk

theorem textClean (m : M3u8) : (0 : Byte) ∉ m.text := by
  have http : (0 : Byte) ∉ httpUrlPrefix := by decide
  have disc : (0 : Byte) ∉ discontinuityTag := by decide
  induction m with
  | tail text clean none_ => exact clean
  | last e =>
    obtain ⟨before,url,behind⟩ := e.text
    simp [M3u8.text,http,before,url,behind]
  | more e line rest ih =>
    obtain ⟨before,url,behind⟩ := e.text
    simp [M3u8.text,http,disc,before,url,behind,ih]

theorem stopsAlike {s : Bytes} (clean : (0 : Byte) ∉ s) : s.takeWhile (fun b => b != 38 && b != 0) = s.takeWhile (· ≠ 38) := by
  induction s with
  | nil => rfl
  | cons b s ih =>
    have nul : b ≠ 0 := fun zero => clean (by simp [zero])
    simp [List.takeWhile_cons,nul,ih fun mem => clean (List.mem_cons_of_mem _ mem)]

theorem spanTaken (rest : Bytes) (k : Nat) (p : Byte → Bool) (inside : k ≤ rest.length) :
    rest.take (rest.length - ((rest.drop k).dropWhile p).length) = rest.take k ++ (rest.drop k).takeWhile p := by
  have parts := congrArg List.length (List.takeWhile_append_dropWhile (p := p) (l := rest.drop k))
  rw [List.length_append,List.length_drop] at parts
  have size : rest.length - ((rest.drop k).dropWhile p).length = k + ((rest.drop k).takeWhile p).length := by omega
  rw [size,List.take_add]
  congr 1
  exact (List.prefix_iff_eq_take.mp (List.takeWhile_prefix p)).symm

theorem parseRuns {front rest : Bytes} (found : search httpUrlPrefix (front ++ httpUrlPrefix) = some front.length)
    (clean : (0 : Byte) ∉ front ++ (httpUrlPrefix ++ rest)) :
    sohuParseM3u8Response (front ++ (httpUrlPrefix ++ rest) ++ [0]) = .ok
      (match fileUrlOf rest with
      | none => (none,[])
      | some s => ((search discontinuityTag rest).map fun k => rest.drop k ++ [0],handedUrl s)) := by
  have there : search httpUrlPrefix (front ++ (httpUrlPrefix ++ rest)) = some front.length := by
    rw [← List.append_assoc]
    exact searchExtends found rest
  have text : (0 : Byte) ∉ rest := fun mem => clean (by simp [mem])
  have curr : ((front ++ (httpUrlPrefix ++ rest)).drop front.length ++ [0]).drop httpUrlPrefix.length = rest ++ [0] := by
    rw [List.drop_left,List.append_assoc,List.drop_left]
  unfold sohuParseM3u8Response fileUrlOf
  simp only [strstrText clean,there,Option.map_some,bind,Except.bind,curr,strstrText text]
  cases file : search fileTag rest with
  | none => rfl
  | some k =>
    have inside : k ≤ rest.length := by
      have bound := searchBound file
      omega
    have stops := stopsAlike (s := rest.drop k) fun mem => text (List.mem_of_mem_drop mem)
    have taken := spanTaken rest k (fun b => b != 38 && b != 0) inside
    have size := congrArg List.length taken
    rw [List.length_take_of_le (Nat.sub_le _ _)] at size
    rw [size,stops] at taken
    rw [stops] at size
    have string : cstr ((rest ++ [0]).take (rest.take k ++ (rest.drop k).takeWhile (· ≠ 38)).length) =
        rest.take k ++ (rest.drop k).takeWhile (· ≠ 38) := by
      rw [List.take_append_of_le_length (by omega),taken,cstrOfNoNul fun mem => text (taken ▸ mem |> List.mem_of_mem_take)]
    simp only [Option.map_some,skipText (p := fun b => b != 38 && b != 0) rfl,List.length_append,List.length_singleton,
      Nat.add_sub_add_right,size,handedUrl,short,decide_eq_true_eq]
    rw [List.length_append] at string
    rw [string]
    refine congrArg (fun url => Except.ok (_,url)) ?_
    split_ifs
    · omega
    · rfl
    · rfl
    · omega

theorem separatorSkips (s : Bytes) : search httpUrlPrefix (discontinuityTag ++ s) =
    (search httpUrlPrefix s).map (· + discontinuityTag.length) :=
  searchBeyond (c := 89) (by decide) (by decide) (by decide) s

theorem separatorNext {e : Entry} (line : e.behind.getLast? = some 10) (s : Bytes) :
    search discontinuityTag (e.url ++ (e.behind ++ (discontinuityTag ++ s))) = some (e.url ++ e.behind).length := by
  have broken : (e.url ++ e.behind).getLast? = some 10 := by simp [List.getLast?_append,line]
  have here : search discontinuityTag (discontinuityTag ++ s) = some 0 := by
    simp [discontinuityTag,ascii,search]
  rw [← List.append_assoc,searchBeyond broken (by decide) e.whole,here]
  simp

theorem entryOpens {e : Entry} {front : Bytes} (skips : ∀ s,search httpUrlPrefix (front ++ s) =
    (search httpUrlPrefix s).map (· + front.length)) :
    search httpUrlPrefix ((front ++ e.before) ++ httpUrlPrefix) = some (front ++ e.before).length := by
  rw [List.append_assoc,skips,e.opens,Option.map_some,List.length_append,Nat.add_comm]

theorem walkRuns (m : M3u8) {front : Bytes} (skips : ∀ s,search httpUrlPrefix (front ++ s) =
    (search httpUrlPrefix s).map (· + front.length)) (clean : (0 : Byte) ∉ front) {fuel : Nat} (enough : m.text.length < fuel) :
    m3u8Loop fuel (front ++ m.text ++ [0]) = .ok m.handed := by
  induction m generalizing front fuel with
  | tail text plain none_ =>
    obtain ⟨fuel,rfl⟩ := Nat.exists_eq_add_one_of_ne_zero (Nat.ne_zero_of_lt enough)
    have both : (0 : Byte) ∉ front ++ text := by simp [clean,plain]
    simp only [m3u8Loop,sohuParseM3u8Response,M3u8.text,strstrText both,skips,none_,bind,Except.bind]
    rfl
  | last e =>
    obtain ⟨fuel,rfl⟩ := Nat.exists_eq_add_one_of_ne_zero (Nat.ne_zero_of_lt enough)
    have all : (0 : Byte) ∉ front ++ (M3u8.last e).text := by simp [clean,textClean]
    simp only [M3u8.text,← List.append_assoc front] at all ⊢
    simp only [m3u8Loop,parseRuns (entryOpens skips) all,M3u8.handed,bind,Except.bind]
    cases fileUrlOf (e.url ++ e.behind) with
    | none => rfl
    | some s =>
      simp only [e.whole]
      rfl
  | more e line rest ih =>
    obtain ⟨fuel,rfl⟩ := Nat.exists_eq_add_one_of_ne_zero (Nat.ne_zero_of_lt enough)
    have all : (0 : Byte) ∉ front ++ (M3u8.more e line rest).text := by simp [clean,textClean]
    have less : rest.text.length < fuel := by
      have some_ : 0 < discontinuityTag.length := by decide
      simp only [M3u8.text,List.length_append] at enough
      omega
    simp only [M3u8.text,← List.append_assoc front] at all ⊢
    simp only [m3u8Loop,parseRuns (entryOpens skips) all,M3u8.handed,bind,Except.bind]
    cases fileUrlOf (e.url ++ (e.behind ++ (discontinuityTag ++ rest.text))) with
    | none => rfl
    | some s =>
      have next : (e.url ++ (e.behind ++ (discontinuityTag ++ rest.text))).drop (e.url ++ e.behind).length =
          discontinuityTag ++ rest.text := by
        rw [← List.append_assoc,List.drop_left]
      simp only [separatorNext line,Option.map_some,next,ih separatorSkips (by decide) less]
      rfl

end walk

def EntryFits (url after : Bytes) : Prop :=
  match search fileTag url with
  | some k => 38 ∈ url.drop k ∨ after = [] ∨ short url = false
  | none => ∀ s ∈ fileUrlOf after,short (url ++ s) = false

def M3u8.Fits : M3u8 → Prop
  | .tail .. => True
  | .last e => EntryFits e.url e.behind
  | .more e _ rest => EntryFits e.url (e.behind ++ (discontinuityTag ++ rest.text)) ∧ rest.Fits

def OneLine (url : Bytes) : Prop := ∀ b ∈ url,isBreak b = false

structure M3u8.Walked (m : M3u8) (handed : List Bytes) : Prop where
  order : handed.filter (· ≠ []) = m.wanted
  lines : ∀ url ∈ handed,OneLine url

def handedOf (found : Option Bytes) : Bytes := (found.map handedUrl).getD []

section entries
variable {url after : Bytes}

theorem fileUrlFound {k : Nat} (found : search fileTag url = some k) (after : Bytes) : fileUrlOf (url ++ after) =
    some (url.take k ++ (url.drop k ++ after).takeWhile (· ≠ 38)) := by
  have inside := searchBound found
  rw [fileUrlOf,searchExtends found after,Option.map_some,List.take_append_of_le_length (by omega),
    List.drop_append_of_le_length (by omega)]

theorem fileUrlBehind (missing : search fileTag url = none) (ends : after.head?.all isBreak = true) :
    fileUrlOf (url ++ after) = (fileUrlOf after).map (url ++ ·) := by
  cases after with
  | nil => simp [fileUrlOf,missing,show search fileTag [] = none by decide]
  | cons c after =>
    have other : c ∉ fileTag := by
      rcases (by simpa [isBreak] using ends : c = 10 ∨ c = 13) with rfl | rfl <;> decide
    have here := searchSplit (show fileTag ≠ [] by decide) other [] after
    have there := searchSplit (show fileTag ≠ [] by decide) other url after
    have empty : search fileTag [] = none := by decide
    simp only [List.nil_append,List.length_nil,missing,empty,Option.none_or] at here there
    unfold fileUrlOf
    rw [here,there]
    cases search fileTag after with
    | none => rfl
    | some k =>
      have place : k + (url.length + 1) = url.length + (k + 1) := by omega
      have beyond : url.length ≤ url.length + (k + 1) := Nat.le_add_right _ _
      simp [place,List.take_append,List.drop_append,List.take_of_length_le beyond,List.drop_eq_nil_of_le beyond]

theorem fileUrlPrefix {s t : Bytes} (found : fileUrlOf s = some t) : t <+: s ∧ t ≠ [] := by
  obtain ⟨k,there,rfl⟩ := Option.map_eq_some_iff.mp found
  have size := searchBound there
  have mark : s.drop k = fileTag ++ s.drop (k + fileTag.length) := by
    have parts := congrArg (List.drop k) (searchFound there)
    rwa [List.append_assoc,List.drop_append_of_le_length (by rw [List.length_take]; omega),List.drop_take_self,
      List.nil_append] at parts
  constructor
  · conv_rhs => rw [← List.take_append_drop k s]
    exact (List.prefix_append_right_inj _).mpr (List.takeWhile_prefix _)
  · rw [mark]
    simp [fileTag,ascii]

theorem breakInside {s : Bytes} {c : Byte} (found : fileUrlOf (c :: s) = some url) : c ∈ url := by
  obtain ⟨front,some_⟩ := fileUrlPrefix found
  cases url with
  | nil => exact absurd rfl some_
  | cons b url =>
    obtain ⟨rest,same⟩ := front
    rw [(List.cons.inj same).1]
    exact List.mem_cons_self

theorem ampKept {s : Bytes} (amp : 38 ∈ s) (t : Bytes) : (s ++ t).takeWhile (· ≠ 38) = s.takeWhile (· ≠ 38) := by
  rw [List.takeWhile_append,if_neg]
  intro whole
  exact untilClean 38 s (((List.takeWhile_prefix _).eq_of_length whole).symm ▸ amp)

theorem ampAbsent {s : Bytes} (clean : 38 ∉ s) (t : Bytes) : (s ++ t).takeWhile (· ≠ 38) = s ++ t.takeWhile (· ≠ 38) :=
  List.takeWhile_append_of_pos (untilAll clean)

theorem fileUrlAmp {k : Nat} (found : search fileTag url = some k) (amp : 38 ∈ url.drop k) (after : Bytes) :
    fileUrlOf (url ++ after) = fileUrlOf url := by
  have own := fileUrlFound found []
  rw [List.append_nil,List.append_nil] at own
  rw [fileUrlFound found,own,ampKept amp]

theorem fileUrlPlain {k : Nat} (found : search fileTag url = some k) (clean : 38 ∉ url.drop k) (after : Bytes) :
    fileUrlOf (url ++ after) = some (url ++ after.takeWhile (· ≠ 38)) := by
  rw [fileUrlFound found,ampAbsent clean,← List.append_assoc,List.take_append_drop]

theorem fileUrlMissing (missing : search fileTag url = none) : fileUrlOf url = none := by
  rw [fileUrlOf,missing]
  rfl

theorem longHanded {s : Bytes} (long : short s = false) : handedOf (some s) = [] := by simp [handedOf,handedUrl,long]

theorem shortHanded {s : Bytes} (fits : short s = true) : handedOf (some s) = s := by simp [handedOf,handedUrl,fits]

theorem longAppend {s : Bytes} (long : short s = false) (t : Bytes) : short (s ++ t) = false := by
  simp only [short,List.length_append,decide_eq_false_iff_not] at long ⊢
  omega

theorem fitsHanded (ends : after.head?.all isBreak = true) (fits : EntryFits url after) :
    handedOf (fileUrlOf (url ++ after)) = handedOf (fileUrlOf url) := by
  unfold EntryFits at fits
  cases found : search fileTag url with
  | some k =>
    simp only [found] at fits
    by_cases amp : 38 ∈ url.drop k
    · rw [fileUrlAmp found amp]
    · have own := fileUrlPlain found amp []
      rw [List.takeWhile_nil,List.append_nil] at own
      rw [fileUrlPlain found amp,own]
      rcases fits with inside | rfl | long
      · exact absurd inside amp
      · rw [List.takeWhile_nil,List.append_nil]
      · rw [longHanded long,longHanded (longAppend long _)]
  | none =>
    simp only [found] at fits
    rw [fileUrlBehind found ends,fileUrlMissing found]
    cases there : fileUrlOf after with
    | none => rfl
    | some s => exact longHanded (fits s there)

theorem lineHanded (ends : after.head?.all isBreak = true) (line : OneLine (handedOf (fileUrlOf (url ++ after)))) :
    EntryFits url after ∨ handedOf (fileUrlOf (url ++ after)) = [] ∧ handedOf (fileUrlOf url) ≠ [] := by
  cases found : search fileTag url with
  | some k =>
    simp only [EntryFits,found]
    by_cases amp : 38 ∈ url.drop k
    · exact .inl (.inl amp)
    · cases after with
      | nil => exact .inl (.inr (.inl rfl))
      | cons c after =>
        have stop : isBreak c = true := ends
        have other : c ≠ 38 := by rintro rfl; cases stop
        have own := fileUrlPlain found amp []
        rw [List.takeWhile_nil,List.append_nil] at own
        rw [fileUrlPlain found amp,List.takeWhile_cons_of_pos (by simpa using other)] at line ⊢
        cases fits : short url with
        | false => exact .inl (.inr (.inr rfl))
        | true =>
          cases more : short (url ++ c :: after.takeWhile (· ≠ 38)) with
          | false =>
            refine .inr ⟨longHanded more,?_⟩
            rw [own,shortHanded fits]
            exact (fileUrlPrefix own).2
          | true =>
            rw [shortHanded more] at line
            exact absurd ((line c (by simp)).symm.trans stop) (by decide)
  | none =>
    simp only [EntryFits,found]
    refine .inl fun s there => ?_
    rw [fileUrlBehind found ends,there,Option.map_some] at line
    cases fits : short (url ++ s) with
    | false => rfl
    | true =>
      cases after with
      | nil => cases there
      | cons c after =>
        rw [shortHanded fits] at line
        have inside := line c (List.mem_append_right _ (breakInside there))
        exact absurd (inside.symm.trans ends) (by decide)

end entries

section playlist

theorem wantedCons (url : Bytes) (urls : List Bytes) : ((url :: urls).filterMap fileUrlOf).filter short =
    [handedOf (fileUrlOf url)].filter (· ≠ []) ++ (urls.filterMap fileUrlOf).filter short := by
  cases found : fileUrlOf url with
  | none => simp [found,handedOf]
  | some s =>
    have some_ := (fileUrlPrefix found).2
    cases fits : short s with
    | true => simp [found,fits,shortHanded fits,some_]
    | false => simp [found,fits,longHanded fits]

theorem behindLine {e : Entry} (line : e.behind.getLast? = some 10) (s : Bytes) :
    (e.behind ++ s).head?.all isBreak = true := by
  have some_ : e.behind ≠ [] := by
    rintro none_
    simp [none_] at line
  rw [List.head?_append_of_ne_nil _ some_]
  exact e.ends

theorem quietRest (m : M3u8) (missing : search fileTag m.text = none) : m.wanted = [] ∧ m.Fits := by
  induction m with
  | tail text clean none_ => exact ⟨rfl,trivial⟩
  | last e =>
    have rest := searchSuffix _ (searchSuffix _ missing)
    have own := searchFront _ rest
    have behind := fileUrlMissing (searchSuffix _ rest)
    refine ⟨?_,?_⟩
    · simp [M3u8.wanted,M3u8.urls,fileUrlMissing own]
    · simp [M3u8.Fits,EntryFits,own,behind]
  | more e line rest ih =>
    have after := searchSuffix _ (searchSuffix _ missing)
    have own := searchFront _ after
    have behind := searchSuffix _ after
    obtain ⟨wanted,fits⟩ := ih (searchSuffix _ (searchSuffix _ behind))
    refine ⟨?_,?_,fits⟩
    · simpa [M3u8.wanted,M3u8.urls,fileUrlMissing own] using wanted
    · simp [EntryFits,own,fileUrlMissing behind]

theorem onePart {url after : Bytes} (ends : after.head?.all isBreak = true)
    (line : OneLine (handedOf (fileUrlOf (url ++ after)))) :
    ([handedOf (fileUrlOf (url ++ after))].filter (· ≠ [])).Sublist ([handedOf (fileUrlOf url)].filter (· ≠ [])) := by
  rcases lineHanded ends line with fits | ⟨none_,-⟩
  · rw [fitsHanded ends fits]
  · rw [none_]
    exact List.nil_sublist _

theorem handedMore {e : Entry} {line : e.behind.getLast? = some 10} {rest : M3u8} {s : Bytes}
    (found : fileUrlOf (e.url ++ (e.behind ++ (discontinuityTag ++ rest.text))) = some s) :
    (M3u8.more e line rest).handed = [handedOf (some s)] ++ rest.handed := by
  simp only [M3u8.handed,found]
  rfl

theorem handedPart (m : M3u8) (lines : ∀ url ∈ m.handed,OneLine url) : (m.handed.filter (· ≠ [])).Sublist m.wanted := by
  induction m with
  | tail text clean none_ => exact List.nil_sublist _
  | last e =>
    have one := onePart e.ends (lines _ List.mem_cons_self)
    rw [M3u8.wanted,M3u8.urls,wantedCons]
    exact one.trans (List.sublist_append_left _ _)
  | more e line rest ih =>
    cases found : fileUrlOf (e.url ++ (e.behind ++ (discontinuityTag ++ rest.text))) with
    | none =>
      simp only [M3u8.handed,found]
      exact List.nil_sublist _
    | some s =>
      rw [handedMore found] at lines ⊢
      have first : OneLine (handedOf (some s)) := lines _ List.mem_cons_self
      have later := ih fun url mem => lines url (List.mem_cons_of_mem _ mem)
      rw [← found] at first ⊢
      rw [M3u8.wanted,M3u8.urls,wantedCons,List.filter_append]
      exact (onePart (behindLine line _) first).append later

theorem ownLine {url : Bytes} (line : OneLine url) : OneLine (handedOf (fileUrlOf url)) := by
  intro b mem
  cases found : fileUrlOf url with
  | none => simp [found,handedOf] at mem
  | some s =>
    rw [found] at mem
    cases fits : short s with
    | true => exact line b ((fileUrlPrefix found).1.subset (shortHanded fits ▸ mem))
    | false => simp [longHanded fits] at mem

theorem oneWalked {url after : Bytes} (own : OneLine url) (ends : after.head?.all isBreak = true) {handed wanted : List Bytes}
    (part : (∀ url ∈ handed,OneLine url) → (handed.filter (· ≠ [])).Sublist wanted) :
    (([handedOf (fileUrlOf (url ++ after))] ++ handed).filter (· ≠ []) =
        [handedOf (fileUrlOf url)].filter (· ≠ []) ++ wanted ∧
      ∀ line ∈ [handedOf (fileUrlOf (url ++ after))] ++ handed,OneLine line) ↔
    EntryFits url after ∧ handed.filter (· ≠ []) = wanted ∧ ∀ url ∈ handed,OneLine url := by
  constructor
  · rintro ⟨order,lines⟩
    have first := lines _ List.mem_cons_self
    have later : ∀ url ∈ handed,OneLine url := fun url mem => lines url (List.mem_cons_of_mem _ mem)
    rw [List.filter_append] at order
    rcases lineHanded ends first with fits | ⟨none_,some_⟩
    · rw [fitsHanded ends fits] at order
      exact ⟨fits,List.append_cancel_left order,later⟩
    · have less := (part later).length_le
      have size := congrArg List.length order
      have one : ([handedOf (fileUrlOf url)].filter (· ≠ [])).length = 1 := by simp [some_]
      have none : ([handedOf (fileUrlOf (url ++ after))].filter (· ≠ [])).length = 0 := by simp [none_]
      rw [List.length_append,List.length_append,one,none] at size
      omega
  · rintro ⟨fits,order,lines⟩
    rw [fitsHanded ends fits,List.filter_append,order]
    refine ⟨rfl,fun other mem => ?_⟩
    rcases List.mem_cons.mp mem with rfl | later
    · exact ownLine own
    · exact lines other later

theorem walkedIff (m : M3u8) (handed : List Bytes) : m.Walked handed ↔
    handed.filter (· ≠ []) = (m.urls.filterMap fileUrlOf).filter short ∧ ∀ url ∈ handed,OneLine url :=
  ⟨fun walked => ⟨walked.order,walked.lines⟩,fun both => ⟨both.1,both.2⟩⟩

theorem emptyWalked (m : M3u8) : m.Walked [[]] ↔ m.wanted = [] := by
  refine ⟨fun walked => walked.order.symm,fun none_ => ⟨none_.symm,fun url mem => ?_⟩⟩
  rw [List.mem_singleton.mp mem]
  exact fun b inside => nomatch inside

theorem walkedFits (m : M3u8) : m.Walked m.handed ↔ m.Fits := by
  induction m with
  | tail text clean none_ => exact (emptyWalked (.tail text clean none_)).trans (iff_of_true rfl trivial)
  | last e =>
    have one := @oneWalked e.url e.behind e.line e.ends [] [] fun _ => List.Sublist.slnil
    rw [walkedIff,M3u8.urls,wantedCons]
    exact one.trans (and_iff_left ⟨rfl,fun url mem => nomatch mem⟩)
  | more e line rest ih =>
    cases found : fileUrlOf (e.url ++ (e.behind ++ (discontinuityTag ++ rest.text))) with
    | none =>
      have missing : search fileTag (e.url ++ (e.behind ++ (discontinuityTag ++ rest.text))) = none := by
        simpa [fileUrlOf] using found
      have own := searchFront _ missing
      have behind := searchSuffix _ missing
      obtain ⟨wanted,fits⟩ := quietRest rest (searchSuffix _ (searchSuffix _ behind))
      have all : (M3u8.more e line rest).wanted = [] := by
        simpa [M3u8.wanted,M3u8.urls,fileUrlMissing own] using wanted
      have first : EntryFits e.url (e.behind ++ (discontinuityTag ++ rest.text)) := by
        simp [EntryFits,own,fileUrlMissing behind]
      simp only [M3u8.handed,found]
      exact (emptyWalked _).trans (iff_of_true all ⟨first,fits⟩)
    | some s =>
      rw [walkedIff,handedMore found,M3u8.urls,wantedCons,← found]
      refine (oneWalked e.line (behindLine line _) (handedPart rest)).trans (and_congr_right fun _ => ?_)
      rw [← ih,walkedIff]
      rfl

end playlist

/-- The walk serves a playlist exactly when what is copied for each entry ends on its line, or is too long to be copied. -/
theorem walkExactly (m : M3u8) : Meets (scGetSohuVideoM3u8 (stringAt m.text)) m.Walked ↔ m.Fits := by
  have enough : m.text.length < (m.text ++ [0]).length + 1 := by
    rw [List.length_append]
    omega
  have runs := @walkRuns m [] (fun s => by simp) (by simp) _ enough
  unfold scGetSohuVideoM3u8 stringAt
  rw [List.nil_append] at runs
  rw [cstrOfNoNul (textClean m),runs]
  exact (meetsOk m.handed).trans (walkedFits m)

def plainEntry : Entry := ⟨ascii "#EXTM3U\n#EXTINF:5,\n",ascii "a/x",[10],by decide +kernel,by decide +kernel,
  by decide +kernel,by decide +kernel,by decide +kernel⟩

def fileEntry : Entry := ⟨ascii "\n#EXTINF:5,\n",ascii "b/ipad?file=/y.mp4&k=1",ascii "\n#EXT-X-ENDLIST\n",by decide +kernel,
  by decide +kernel,by decide +kernel,by decide +kernel,by decide +kernel⟩

def twoEntries : M3u8 := .more plainEntry (by decide +kernel) (.last fileEntry)

theorem linesJoined : scGetSohuVideoM3u8 (stringAt twoEntries.text) = .ok
      [ascii "a/x\n#EXT-X-DISCONTINUITY\n#EXTINF:5,\nhttp://b/ipad?file=/y.mp4",ascii "b/ipad?file=/y.mp4"] ∧
    ¬Meets (scGetSohuVideoM3u8 (stringAt twoEntries.text)) twoEntries.Walked := by
  have run : scGetSohuVideoM3u8 (stringAt twoEntries.text) = .ok
      [ascii "a/x\n#EXT-X-DISCONTINUITY\n#EXTINF:5,\nhttp://b/ipad?file=/y.mp4",ascii "b/ipad?file=/y.mp4"] := by decide
  refine ⟨run,?_⟩
  rw [run,meetsOk]
  intro walked
  have first := walked.lines _ List.mem_cons_self 10 (by decide)
  cases first

end MipsElfExec.SnoopClient
