import Mathlib.Data.List.TakeWhile
import MipsElfExec.Snooping.Rule

/-! The two lookups of a cache rule: in the host tree, with the slash behind the host replaced for the search, and
along the host table. -/
namespace MipsElfExec.Snooping
open CString Avl

def ngxStrncmp (a b : Bytes) (n : Nat) : Bool := (cstr a).take n == (cstr b).take n

-- A part of a URL, from one place to another; the length is a difference of pointers.
def partMatches (want url : Bytes) (start stop : Nat) : Bool :=
  (want.length : Int) == (stop : Int) - start && ngxStrncmp want (url.drop start) want.length

def Rule.matchesParts (rule : Rule) (url : Bytes) (x : Xiegan) : Bool :=
  (!rule.cacheFlg.headXiegan || partMatches rule.headXiegan url x.head x.mid) &&
  (!rule.cacheFlg.midXiegan || partMatches rule.midXiegan url x.mid x.tail) &&
  (!rule.cacheFlg.tailXiegan || partMatches rule.tailXiegan url x.tail x.para) &&
  (!rule.cacheFlg.postFile || partMatches rule.postFile url x.post x.para) &&
  (!rule.cacheFlg.para || partMatches rule.para url x.para url.length)

def ngxHttpUrlFileCache (host url : Bytes) : Option Rule :=
  let cacheHost := (httpCacheHostUrl.find? fun cacheHost =>
    cacheHost.host.length == host.length && ngxStrncmp cacheHost.host host cacheHost.host.length).getD httpCacheDefaultHostUrl
  let x := xieganScan url 0 ⟨0,0,0,0,url.length - 1,url.length⟩
  cacheHost.urlCache.find? (·.matchesParts url x)

def ngxHttpUrlRuleGetIn (url : Bytes) : Option Rule × Bytes :=
  match url.findIdx? (· == 47) with
  | none => (none,url)
  | some len =>
    if len = 0 then (none,url)
    else
      let patched := url.set len 0
      let found := avlSearch httpHostCmp httpCacheHostTree patched
      let url := patched.set len 47
      let resUrl := url.drop len
      let x := xieganScan resUrl 0 ⟨0,0,0,0,0,resUrl.length⟩
      match found with
      | some cacheHost =>
        if cacheHost.forbiden then (some httpForbidenRule,url)
        else (cacheHost.urlCache.find? (·.matchesParts resUrl x),url)
      | none => (httpCacheDefaultHostUrl.urlCache.find? (·.matchesParts resUrl x),url)

section strings
variable {x y : Byte} {a b c : Bytes}

theorem byteOrder (x y : Byte) : (x < y ∧ ¬y < x) ∨ x = y ∨ (y < x ∧ ¬x < y) := by
  by_cases same : x = y
  · exact .inr (.inl same)
  · rcases UInt8.lt_or_lt_of_ne same with less | more
    · exact .inl ⟨less,UInt8.lt_asymm less⟩
    · exact .inr (.inr ⟨more,UInt8.lt_asymm more⟩)

theorem strcmpEq : strcmp a b = .eq ↔ a = b := by
  induction a generalizing b with
  | nil => cases b <;> simp [strcmp]
  | cons x a ih =>
    cases b with
    | nil => simp [strcmp]
    | cons y b =>
      unfold strcmp
      rcases byteOrder x y with ⟨less,_⟩ | same | ⟨more,other⟩
      · simp [less,UInt8.ne_of_lt less]
      · simp [same,ih]
      · simp [other,more,(UInt8.ne_of_lt more).symm]

theorem strcmpSwap : strcmp a b = (strcmp b a).swap := by
  induction a generalizing b with
  | nil => cases b <;> rfl
  | cons x a ih =>
    cases b with
    | nil => rfl
    | cons y b =>
      unfold strcmp
      rcases byteOrder x y with ⟨less,other⟩ | same | ⟨more,other⟩
      · rw [if_pos less,if_neg other,if_pos less]
        rfl
      · simp only [same,UInt8.lt_irrefl,if_false]
        exact ih
      · rw [if_neg other,if_pos more,if_pos more]
        rfl

theorem strcmpConsLe : (strcmp (x :: a) (y :: b)).isLE = true ↔ x < y ∨ (x = y ∧ (strcmp a b).isLE = true) := by
  rw [strcmp]
  rcases byteOrder x y with ⟨less,_⟩ | same | ⟨more,other⟩
  · simp [less]
  · simp [same]
  · simp [other,more,(UInt8.ne_of_lt more).symm]

theorem strcmpTrans (first : (strcmp a b).isLE = true) (second : (strcmp b c).isLE = true) :
    (strcmp a c).isLE = true := by
  induction a generalizing b c with
  | nil => cases c <;> rfl
  | cons x a ih =>
    cases b with
    | nil => exact absurd first (by simp [strcmp])
    | cons y b =>
      cases c with
      | nil => exact absurd second (by simp [strcmp])
      | cons z c =>
        rw [strcmpConsLe] at first second ⊢
        rcases first with less | ⟨rfl,rest⟩
        · rcases second with later | ⟨rfl,_⟩
          · exact .inl (UInt8.lt_trans less later)
          · exact .inl less
        · rcases second with later | ⟨rfl,more⟩
          · exact .inl later
          · exact .inr ⟨rfl,ih rest more⟩

def cstrOrder (a b : Bytes) : Ordering := strcmp (cstr a) (cstr b)

instance cstrOrderTrans : Std.TransCmp cstrOrder where
  eq_swap := strcmpSwap
  isLE_trans := strcmpTrans

end strings

section hosts
variable {host : Bytes}

theorem treeFind (key : Bytes) : avlSearch httpHostCmp httpCacheHostTree key =
    httpCacheHostUrl.find? fun cacheHost => cstr cacheHost.host == cstr key := by
  have found : avlSearch httpHostCmp httpCacheHostTree key =
      httpCacheHostUrl.find? fun cacheHost => cstrOrder cacheHost.host key == .eq :=
    @builtFind _ _ Host.host cstrOrder _ httpCacheHostUrl key
  have same (cacheHost : Host) : (cstrOrder cacheHost.host key == .eq) = (cstr cacheHost.host == cstr key) := by
    rw [Bool.eq_iff_iff,beq_iff_eq,beq_iff_eq]
    exact strcmpEq
  rw [found]
  simp only [same]

theorem tableClean : ∀ cacheHost ∈ httpCacheHostUrl,(0 : Byte) ∉ cacheHost.host := by decide

theorem tableFind (clean : (0 : Byte) ∉ host) : (httpCacheHostUrl.find? fun cacheHost =>
    cacheHost.host.length == host.length && ngxStrncmp cacheHost.host host cacheHost.host.length) =
      httpCacheHostUrl.find? fun cacheHost => cstr cacheHost.host == host := by
  refine List.find?_congr fun cacheHost mem => ?_
  rw [Bool.eq_iff_iff]
  simp only [ngxStrncmp,Bool.and_eq_true,beq_iff_eq,cstrOfNoNul clean,cstrOfNoNul (tableClean cacheHost mem),List.take_length]
  constructor
  · rintro ⟨size,same⟩
    rw [same,size,List.take_length]
  · rintro rfl
    exact ⟨rfl,(List.take_length ..).symm⟩

end hosts

section parts
variable {bs url want : Bytes} {i start stop : Nat} {x : Xiegan}

theorem slashBounds (first : x.head ≤ x.mid) (second : x.mid ≤ x.tail) (third : x.tail ≤ i) :
    (x.slash i).head ≤ (x.slash i).mid ∧ (x.slash i).mid ≤ (x.slash i).tail ∧ (x.slash i).tail = i := by
  unfold Xiegan.slash
  split
  · exact ⟨Nat.le_refl _,Nat.le_refl _,rfl⟩
  · exact ⟨first.trans (second.trans third),Nat.le_refl _,rfl⟩
  · exact ⟨first,second.trans third,rfl⟩

theorem slashTail (x : Xiegan) (i : Nat) : (x.slash i).tail = i := by
  unfold Xiegan.slash
  split <;> rfl

theorem slashPara (x : Xiegan) (i : Nat) : (x.slash i).para = x.para ∧ (x.slash i).post = x.post := by
  unfold Xiegan.slash
  split <;> exact ⟨rfl,rfl⟩

theorem scanBounds (size : i + bs.length = x.para) (first : x.head ≤ x.mid) (second : x.mid ≤ x.tail)
    (third : x.tail ≤ i) : (xieganScan bs i x).head ≤ (xieganScan bs i x).mid ∧
      (xieganScan bs i x).mid ≤ (xieganScan bs i x).tail ∧ (xieganScan bs i x).tail ≤ (xieganScan bs i x).para ∧
      (xieganScan bs i x).para ≤ i + bs.length := by
  induction bs generalizing i x with
  | nil =>
    have para : i = x.para := size
    exact ⟨first,second,para ▸ third,para.ge⟩
  | cons b bs ih =>
    have next : i + 1 + bs.length = i + (b :: bs).length := by rw [List.length_cons]; omega
    unfold xieganScan
    rw [← next] at size ⊢
    split
    · obtain ⟨one,two,three⟩ := slashBounds first second third
      exact ih (size.trans (slashPara x i).1.symm) one two (by omega)
    · split
      · exact ih size first second (Nat.le_succ_of_le third)
      · split
        · exact ⟨first,second,third,Nat.le_trans (Nat.le_succ i) (Nat.le_add_right _ _)⟩
        · exact ih size first second (Nat.le_succ_of_le third)

theorem slashPost (x : Xiegan) (i post : Nat) : Xiegan.slash { x with post := post } i = { x.slash i with post := post } := by
  unfold Xiegan.slash
  dsimp only
  split <;> rfl

theorem scanPost (bs : Bytes) (i : Nat) (x : Xiegan) (post : Nat) : xieganScan bs i { x with post := post } =
    { xieganScan bs i x with
      post := if 46 ∈ bs.takeWhile (· ≠ 63) then (xieganScan bs i x).post else post } := by
  induction bs generalizing i x with
  | nil => simp [xieganScan]
  | cons b bs ih =>
    by_cases slash : b = 47
    · have taken : (b :: bs).takeWhile (· ≠ 63) = b :: bs.takeWhile (· ≠ 63) :=
        List.takeWhile_cons_of_pos (by simp [slash])
      rw [xieganScan,if_pos slash,slashPost,ih,taken,xieganScan,if_pos slash]
      simp [slash]
    · by_cases dot : b = 46
      · have taken : (b :: bs).takeWhile (· ≠ 63) = b :: bs.takeWhile (· ≠ 63) :=
          List.takeWhile_cons_of_pos (by simp [dot])
        rw [xieganScan,if_neg slash,if_pos dot,taken,xieganScan,if_neg slash,if_pos dot]
        simp [dot]
      · by_cases mark : b = 63
        · rw [xieganScan,if_neg slash,if_neg dot,if_pos mark,xieganScan,if_neg slash,if_neg dot,if_pos mark]
          simp [mark]
        · have taken : (b :: bs).takeWhile (· ≠ 63) = b :: bs.takeWhile (· ≠ 63) :=
            List.takeWhile_cons_of_pos (by simpa using mark)
          rw [xieganScan,if_neg slash,if_neg dot,if_neg mark,ih,taken,xieganScan,if_neg slash,if_neg dot,if_neg mark]
          simp [Ne.symm dot]

theorem scanPara (size : i + bs.length = x.para) :
    (xieganScan bs i x).para = i + (bs.takeWhile (· ≠ 63)).length := by
  induction bs generalizing i x with
  | nil => exact size.symm
  | cons b bs ih =>
    have next : i + 1 + bs.length = i + (b :: bs).length := by rw [List.length_cons]; omega
    rw [← next] at size
    by_cases mark : b = 63
    · rw [xieganScan,if_neg (by simp [mark]),if_neg (by simp [mark]),if_pos mark]
      simp [mark]
    · have taken : (b :: bs).takeWhile (· ≠ 63) = b :: bs.takeWhile (· ≠ 63) :=
        List.takeWhile_cons_of_pos (by simpa using mark)
      have more : i + (b :: bs.takeWhile (· ≠ 63)).length = i + 1 + (bs.takeWhile (· ≠ 63)).length := by
        rw [List.length_cons]
        omega
      unfold xieganScan
      rw [taken,more]
      split
      · exact ih (size.trans (slashPara x i).1.symm)
      · split
        · exact ih size
        · exact ih size

theorem scanDot (size : i + bs.length = x.para) (dot : 46 ∈ bs.takeWhile (· ≠ 63)) :
    i ≤ (xieganScan bs i x).post ∧ (xieganScan bs i x).post < (xieganScan bs i x).para := by
  induction bs generalizing i x with
  | nil => cases dot
  | cons b bs ih =>
    have next : i + 1 + bs.length = i + (b :: bs).length := by rw [List.length_cons]; omega
    rw [← next] at size
    by_cases mark : b = 63
    · simp [mark] at dot
    have taken : (b :: bs).takeWhile (· ≠ 63) = b :: bs.takeWhile (· ≠ 63) :=
      List.takeWhile_cons_of_pos (by simpa using mark)
    rw [taken,List.mem_cons] at dot
    by_cases slash : b = 47
    · have later : 46 ∈ bs.takeWhile (· ≠ 63) := dot.resolve_left (by rw [slash]; decide)
      obtain ⟨low,high⟩ := ih (size.trans (slashPara x i).1.symm) later
      rw [xieganScan,if_pos slash]
      exact ⟨Nat.le_of_succ_le low,high⟩
    · by_cases here : b = 46
      · rw [xieganScan,if_neg slash,if_pos here]
        by_cases later : 46 ∈ bs.takeWhile (· ≠ 63)
        · obtain ⟨low,high⟩ := ih (x := { x with post := i }) size later
          exact ⟨Nat.le_of_succ_le low,high⟩
        · have far := scanPara (x := x) size
          rw [scanPost bs (i + 1) x i,if_neg later]
          exact ⟨Nat.le_refl i,by dsimp only; omega⟩
      · have later : 46 ∈ bs.takeWhile (· ≠ 63) := dot.resolve_left (Ne.symm here)
        obtain ⟨low,high⟩ := ih size later
        rw [xieganScan,if_neg slash,if_neg here,if_neg mark]
        exact ⟨Nat.le_of_succ_le low,high⟩

theorem partSlice (text : (0 : Byte) ∉ url) (clean : (0 : Byte) ∉ want) (order : start ≤ stop) (inside : stop ≤ url.length) :
    partMatches want url start stop = (slice url start stop == want) := by
  have tail : (0 : Byte) ∉ url.drop start := fun mem => text (List.mem_of_mem_drop mem)
  have size : (slice url start stop).length = stop - start := by
    rw [slice,List.length_take_of_le]
    rw [List.length_drop]
    omega
  rw [Bool.eq_iff_iff]
  simp only [partMatches,ngxStrncmp,Bool.and_eq_true,beq_iff_eq,cstrOfNoNul tail,cstrOfNoNul clean,List.take_length]
  constructor
  · rintro ⟨long,same⟩
    have width : want.length = stop - start := by omega
    rw [same,width,slice]
  · intro same
    have width : want.length = stop - start := by rw [← same,size]
    refine ⟨by omega,?_⟩
    rw [width,← same,slice]

end parts

def Rule.texts (rule : Rule) : Bytes :=
  rule.headXiegan ++ rule.midXiegan ++ rule.tailXiegan ++ rule.postFile ++ rule.para

section rules
variable {rule : Rule} {host url : Bytes}

theorem rulesClean : ∀ cacheHost ∈ httpCacheDefaultHostUrl :: httpCacheHostUrl,∀ rule ∈ cacheHost.urlCache,
    (0 : Byte) ∉ rule.texts := by decide

theorem forbiddenRules : ∀ cacheHost ∈ httpCacheHostUrl,cacheHost.forbiden = true →
    cacheHost.urlCache = [httpForbidenRule] := by decide

def treeScan (url : Bytes) : Xiegan := xieganScan url 0 ⟨0,0,0,0,0,url.length⟩
def tableScan (url : Bytes) : Xiegan := xieganScan url 0 ⟨0,0,0,0,url.length - 1,url.length⟩

theorem treeBounds (url : Bytes) : (treeScan url).head ≤ (treeScan url).mid ∧ (treeScan url).mid ≤ (treeScan url).tail ∧
    (treeScan url).tail ≤ (treeScan url).para ∧ (treeScan url).para ≤ url.length := by
  have bounds := @scanBounds url 0 ⟨0,0,0,0,0,url.length⟩ (Nat.zero_add _) (Nat.le_refl 0) (Nat.le_refl 0)
    (Nat.le_refl 0)
  rw [Nat.zero_add] at bounds
  exact bounds

theorem treePost (url : Bytes) : (treeScan url).post ≤ (treeScan url).para := by
  have same := scanPost url 0 ⟨0,0,0,0,0,url.length⟩ 0
  by_cases dot : 46 ∈ url.takeWhile (· ≠ 63)
  · exact (scanDot (Nat.zero_add _) dot).2.le
  · rw [if_neg dot] at same
    have zero : (treeScan url).post = 0 := congrArg Xiegan.post same
    rw [zero]
    exact Nat.zero_le _

theorem tableTree (url : Bytes) : tableScan url = { treeScan url with
    post := if 46 ∈ url.takeWhile (· ≠ 63) then (treeScan url).post else url.length - 1 } :=
  scanPost url 0 ⟨0,0,0,0,0,url.length⟩ (url.length - 1)

theorem acceptsParts (text : (0 : Byte) ∉ url) (clean : (0 : Byte) ∉ rule.texts) :
    rule.matchesParts url (treeScan url) = rule.accepts url := by
  simp only [Rule.texts,List.mem_append,not_or] at clean
  obtain ⟨⟨⟨⟨head,mid⟩,tail⟩,post⟩,para⟩ := clean
  obtain ⟨one,two,three,four⟩ := treeBounds url
  unfold Rule.matchesParts
  rw [partSlice text head one (by omega),partSlice text mid two (by omega),partSlice text tail three four,
    partSlice text post (treePost url) four,partSlice text para four (Nat.le_refl _)]
  rfl

variable {rest : Bytes}

def ruleFor (host url : Bytes) : Option Rule :=
  match httpCacheHostUrl.find? fun cacheHost => cstr cacheHost.host == host with
  | some cacheHost => if cacheHost.forbiden then some httpForbidenRule else cacheHost.urlCache.find? (·.accepts url)
  | none => httpCacheDefaultHostUrl.urlCache.find? (·.accepts url)

theorem partsFind {cacheHost : Host} (mem : cacheHost ∈ httpCacheDefaultHostUrl :: httpCacheHostUrl)
    (text : (0 : Byte) ∉ url) :
    cacheHost.urlCache.find? (·.matchesParts url (treeScan url)) = cacheHost.urlCache.find? (·.accepts url) :=
  List.find?_congr fun rule inside => acceptsParts text (rulesClean cacheHost mem rule inside)

theorem ruleGetIn (named : host ≠ []) (plain : 47 ∉ host) (clean : (0 : Byte) ∉ host) (text : (0 : Byte) ∉ 47 :: rest) :
    ngxHttpUrlRuleGetIn (host ++ 47 :: rest) = (ruleFor host (47 :: rest),host ++ 47 :: rest) := by
  have first : (host ++ 47 :: rest).findIdx? (· == 47) = some host.length := by
    have none_ : host.findIdx? (· == 47) = none := by
      rw [List.findIdx?_eq_none_iff]
      exact fun b mem => by simpa using fun same : b = 47 => plain (same ▸ mem)
    have here : (47 :: rest).findIdx? (· == (47 : Byte)) = some 0 := by simp [List.findIdx?_cons]
    rw [List.findIdx?_append,none_,here]
    simp
  have long : host.length ≠ 0 := fun zero => named (List.length_eq_zero_iff.mp zero)
  have patched : (host ++ 47 :: rest).set host.length 0 = host ++ 0 :: rest := by simp
  have restored : (host ++ 0 :: rest).set host.length 47 = host ++ 47 :: rest := by simp
  have behind : (host ++ 47 :: rest).drop host.length = 47 :: rest := List.drop_left
  have key : avlSearch httpHostCmp httpCacheHostTree (host ++ 0 :: rest) =
      httpCacheHostUrl.find? fun cacheHost => cstr cacheHost.host == host := by
    rw [treeFind,cstrTerminated host rest clean]
  unfold ngxHttpUrlRuleGetIn ruleFor
  rw [first]
  dsimp only
  rw [if_neg long,patched,restored,behind,key]
  cases found : httpCacheHostUrl.find? fun cacheHost => cstr cacheHost.host == host with
  | none =>
    dsimp only
    rw [← partsFind List.mem_cons_self text]
    rfl
  | some cacheHost =>
    dsimp only
    rw [← partsFind (List.mem_cons_of_mem _ (List.mem_of_find?_eq_some found)) text]
    split <;> rfl

theorem ruleForGet (named : host ≠ []) (plain : 47 ∉ host) (clean : (0 : Byte) ∉ host) :
    ngxHttpUrlRuleGet (host ++ 47 :: rest) = ruleFor host (47 :: rest) := by
  have stop : (47 :: rest).takeWhile (fun b : Byte => b ≠ 47) = [] := List.takeWhile_cons_of_neg (by simp)
  have start : (47 :: rest).dropWhile (fun b : Byte => b ≠ 47) = 47 :: rest := List.dropWhile_cons_of_neg (by simp)
  unfold ngxHttpUrlRuleGet ruleFor
  rewrite [List.takeWhile_append_of_pos (untilAll plain),List.dropWhile_append_of_pos (untilAll plain),stop,start,
    List.append_nil,if_neg (by simp [named]),treeFind,cstrOfNoNul clean]
  cases httpCacheHostUrl.find? fun cacheHost => cstr cacheHost.host == host <;> rfl

def qqHost : Bytes := ascii "vv.video.qq.com"

theorem postNamed : ∀ cacheHost ∈ httpCacheDefaultHostUrl :: httpCacheHostUrl,cacheHost.host = qqHost ∨
    ∀ rule ∈ cacheHost.urlCache,rule.cacheFlg.postFile = true → 2 ≤ rule.postFile.length ∧ rule.postFile.head? = some 46 := by
  decide

theorem matchesPost (rule : Rule) (url : Bytes) (x : Xiegan) (post : Nat)
    (same : rule.cacheFlg.postFile = true → partMatches rule.postFile url post x.para = partMatches rule.postFile url x.post x.para) :
    rule.matchesParts url { x with post := post } = rule.matchesParts url x := by
  unfold Rule.matchesParts
  cases flag : rule.cacheFlg.postFile with
  | false => rfl
  | true =>
    dsimp only
    rw [same flag]

theorem noDot (dotless : 46 ∉ url.takeWhile (· ≠ 63)) : (treeScan url).post = 0 := by
  have same := scanPost url 0 ⟨0,0,0,0,0,url.length⟩ 0
  rw [if_neg dotless] at same
  exact congrArg Xiegan.post same

theorem partsAgree (text : (0 : Byte) ∉ 47 :: rest)
    (named : rule.cacheFlg.postFile = true → 2 ≤ rule.postFile.length ∧ rule.postFile.head? = some 46) :
    rule.matchesParts (47 :: rest) (tableScan (47 :: rest)) = rule.matchesParts (47 :: rest) (treeScan (47 :: rest)) := by
  rw [tableTree]
  refine matchesPost rule _ _ _ fun flag => ?_
  split
  · rfl
  · rename_i dotless
    obtain ⟨long,dot⟩ := named flag
    obtain ⟨tail,whole⟩ := List.head?_eq_some_iff.mp dot
    have bound := (treeBounds (47 :: rest)).2.2.2
    have size : (47 :: rest).length = rest.length + 1 := rfl
    have far : partMatches rule.postFile (47 :: rest) ((47 :: rest).length - 1) (treeScan (47 :: rest)).para = false := by
      have other : ((rule.postFile.length : Int) == ((treeScan (47 :: rest)).para : Int) - ((47 :: rest).length - 1 : Nat)) = false := by
        rw [beq_eq_false_iff_ne]
        omega
      rw [partMatches,other,Bool.false_and]
    have near : partMatches rule.postFile (47 :: rest) (treeScan (47 :: rest)).post (treeScan (47 :: rest)).para = false := by
      have other : ngxStrncmp rule.postFile (47 :: rest) rule.postFile.length = false := by
        rw [whole,ngxStrncmp,cstrOfNoNul text,beq_eq_false_iff_ne]
        simp [cstr]
      rw [noDot dotless,partMatches,List.drop_zero,other,Bool.and_false]
    rw [far,near]

theorem scanAppend {front : Bytes} (plain : 63 ∉ front) (bs : Bytes) (i : Nat) (x : Xiegan) :
    xieganScan (front ++ bs) i x = xieganScan bs (i + front.length) (xieganScan front i x) := by
  induction front generalizing i x with
  | nil => rfl
  | cons b front ih =>
    rw [List.mem_cons,not_or] at plain
    have next : i + (b :: front).length = i + 1 + front.length := by rw [List.length_cons]; omega
    have other := Ne.symm plain.1
    rw [List.cons_append,next]
    by_cases slash : b = 47
    · rw [xieganScan,if_pos slash,xieganScan,if_pos slash]
      exact ih plain.2 _ _
    · by_cases dot : b = 46
      · rw [xieganScan,if_neg slash,if_pos dot,xieganScan,if_neg slash,if_pos dot]
        exact ih plain.2 _ _
      · rw [xieganScan,if_neg slash,if_neg dot,if_neg other,xieganScan,if_neg slash,if_neg dot,if_neg other]
        exact ih plain.2 _ _

def oddUrl (url : Bytes) : Prop := ∃ front,url = front ++ ascii "/getinfo?" ∧ 46 ∉ front ∧ 63 ∉ front

theorem oddScan : oddUrl url ↔ 46 ∉ url.takeWhile (· ≠ 63) ∧ (treeScan url).para + 1 = url.length ∧
    slice url (treeScan url).tail (treeScan url).para = ascii "/getinfo" := by
  have para : (treeScan url).para = 0 + (url.takeWhile (· ≠ 63)).length := scanPara (Nat.zero_add _)
  rw [Nat.zero_add] at para
  constructor
  · rintro ⟨front,rfl,dotless,plain⟩
    have path : (front ++ ascii "/getinfo?").takeWhile (· ≠ 63) = front ++ ascii "/getinfo" := by
      rw [List.takeWhile_append_of_pos (untilAll plain)]
      rfl
    have scan : (treeScan (front ++ ascii "/getinfo?")).tail = front.length := by
      unfold treeScan
      rw [scanAppend plain,Nat.zero_add]
      exact slashTail _ front.length
    rw [path] at para ⊢
    refine ⟨?_,?_,?_⟩
    · exact fun mem => (List.mem_append.mp mem).elim dotless (by decide)
    · rw [para,List.length_append,List.length_append]
      rfl
    · have width : (front ++ ascii "/getinfo").length - front.length = (ascii "/getinfo").length := by
        rw [List.length_append]
        omega
      rw [scan,para,slice,List.drop_left,width]
      rfl
  · rintro ⟨dotless,last,name⟩
    have split : url.takeWhile (· ≠ 63) ++ url.dropWhile (· ≠ 63) = url := List.takeWhile_append_dropWhile
    have size := congrArg List.length split
    rw [List.length_append,← para] at size
    obtain ⟨b,same⟩ : ∃ b,url.dropWhile (· ≠ 63) = [b] := List.length_eq_one_iff.mp (by omega)
    have mark : b = 63 := by
      rcases untilStop 63 url with none_ | ⟨rest,first⟩
      · rw [none_] at same
        cases same
      · exact (List.cons.inj (same.symm.trans first)).1
    have front : url.take (treeScan url).para = url.takeWhile (· ≠ 63) := by
      have taken : (url.takeWhile (· ≠ 63) ++ url.dropWhile (· ≠ 63)).take (url.takeWhile (· ≠ 63)).length =
          url.takeWhile (· ≠ 63) := List.take_left
      rw [split] at taken
      rw [para,taken]
    have tail : (url.takeWhile (· ≠ 63)).drop (treeScan url).tail = ascii "/getinfo" := by
      rw [← front,List.drop_take]
      exact name
    refine ⟨(url.takeWhile (· ≠ 63)).take (treeScan url).tail,?_,fun mem => dotless (List.mem_of_mem_take mem),fun mem => ?_⟩
    · have whole : url = (url.takeWhile (· ≠ 63)).take (treeScan url).tail ++ ascii "/getinfo" ++ [63] := by
        rw [mark] at same
        rw [← tail,List.take_append_drop,← same,split]
      rw [List.append_assoc] at whole
      exact whole
    · exact untilClean 63 url (List.mem_of_mem_take mem)

end rules

section lookups
variable {host url rest : Bytes}

theorem tableLookup (clean : (0 : Byte) ∉ host) : ngxHttpUrlFileCache host url =
    ((httpCacheHostUrl.find? fun cacheHost => cstr cacheHost.host == host).getD httpCacheDefaultHostUrl).urlCache.find?
      (·.matchesParts url (tableScan url)) := by
  unfold ngxHttpUrlFileCache
  rw [tableFind clean]
  rfl

theorem rulesAgree {cacheHost : Host} (mem : cacheHost ∈ httpCacheDefaultHostUrl :: httpCacheHostUrl)
    (other : cacheHost.host ≠ qqHost) (text : (0 : Byte) ∉ 47 :: rest) :
    cacheHost.urlCache.find? (·.accepts (47 :: rest)) =
      cacheHost.urlCache.find? (·.matchesParts (47 :: rest) (tableScan (47 :: rest))) := by
  refine List.find?_congr fun rule inside => ?_
  rw [partsAgree text ((postNamed cacheHost mem).resolve_left other rule inside),
    acceptsParts text (rulesClean cacheHost mem rule inside)]

theorem foundHost {cacheHost : Host}
    (found : (httpCacheHostUrl.find? fun cacheHost => cstr cacheHost.host == host) = some cacheHost) :
    cacheHost ∈ httpCacheHostUrl ∧ cacheHost.host = host := by
  have mem := List.mem_of_find?_eq_some found
  have same := List.find?_some found
  rw [beq_iff_eq,cstrOfNoNul (tableClean cacheHost mem)] at same
  exact ⟨mem,same⟩

theorem lookupsAgree (other : host ≠ qqHost) (clean : (0 : Byte) ∉ host) (text : (0 : Byte) ∉ 47 :: rest) :
    ruleFor host (47 :: rest) = ngxHttpUrlFileCache host (47 :: rest) := by
  rw [tableLookup clean,ruleFor]
  cases found : httpCacheHostUrl.find? fun cacheHost => cstr cacheHost.host == host with
  | none => exact rulesAgree List.mem_cons_self (by decide) text
  | some cacheHost =>
    obtain ⟨mem,name⟩ := foundHost found
    dsimp only [Option.getD_some]
    split
    · rename_i forbiden
      rw [forbiddenRules cacheHost mem forbiden]
      rfl
    · exact rulesAgree (List.mem_cons_of_mem _ mem) (name ▸ other) text

theorem qqFound : ∃ cacheHost,(httpCacheHostUrl.find? fun cacheHost => cstr cacheHost.host == qqHost) = some cacheHost ∧
    cacheHost.forbiden = false ∧ cacheHost.urlCache = httpCacheVvVideoQqComRule :=
  ⟨allowed "vv.video.qq.com" httpCacheVvVideoQqComRule,by decide,rfl,rfl⟩

def qqRule : Rule := httpCacheVvVideoQqComRule.head (List.cons_ne_nil _ _)

theorem qqMatches (x : Xiegan) : qqRule.matchesParts url x =
    (partMatches (ascii "/getinfo") url x.tail x.para && partMatches [] url x.post x.para) := by
  unfold Rule.matchesParts
  simp [qqRule,httpCacheVvVideoQqComRule,parsePage]

theorem emptyPart (start stop : Nat) : partMatches [] url start stop = true ↔ stop = start := by
  simp [partMatches,ngxStrncmp]
  omega

theorem postBefore : (treeScan (47 :: rest)).post < (treeScan (47 :: rest)).para := by
  by_cases dot : 46 ∈ (47 :: rest).takeWhile (· ≠ 63)
  · exact (scanDot (Nat.zero_add _) dot).2
  · have para : (treeScan (47 :: rest)).para = 0 + ((47 :: rest).takeWhile (· ≠ 63)).length := scanPara (Nat.zero_add _)
    have taken : (47 :: rest).takeWhile (fun b : Byte => decide (b ≠ 63)) = 47 :: rest.takeWhile (· ≠ 63) :=
      List.takeWhile_cons_of_pos (by decide)
    rw [taken,List.length_cons] at para
    rw [noDot dot]
    omega

theorem qqTree (text : (0 : Byte) ∉ 47 :: rest) : ruleFor qqHost (47 :: rest) = none := by
  obtain ⟨cacheHost,found,allowed,rules⟩ := qqFound
  have never : qqRule.accepts (47 :: rest) = false := by
    have before := @postBefore rest
    have other : partMatches [] (47 :: rest) (treeScan (47 :: rest)).post (treeScan (47 :: rest)).para = false := by
      rw [Bool.eq_false_iff]
      exact fun yes => absurd ((emptyPart _ _).mp yes) (by omega)
    rw [← acceptsParts text (by decide),qqMatches,other,Bool.and_false]
  rw [ruleFor,found]
  dsimp only
  rw [if_neg (by simp [allowed]),rules]
  change [qqRule].find? (·.accepts (47 :: rest)) = none
  rw [List.find?_singleton,never]
  rfl

theorem qqTable (text : (0 : Byte) ∉ 47 :: rest) :
    ngxHttpUrlFileCache qqHost (47 :: rest) = none ↔ ¬oddUrl (47 :: rest) := by
  obtain ⟨cacheHost,found,_,rules⟩ := qqFound
  obtain ⟨_,_,inside,above⟩ := treeBounds (47 :: rest)
  have matched : qqRule.matchesParts (47 :: rest) (tableScan (47 :: rest)) = true ↔ oddUrl (47 :: rest) := by
    rw [qqMatches,Bool.and_eq_true,emptyPart,oddScan,tableTree,partSlice text (by decide) inside above,beq_iff_eq]
    dsimp only
    have before := @postBefore rest
    have size : (47 :: rest).length = rest.length + 1 := rfl
    split
    · rename_i dot
      exact ⟨fun both => absurd both.2 (by omega),fun all => absurd dot all.1⟩
    · rename_i dotless
      constructor
      · exact fun both => ⟨dotless,by omega,both.1⟩
      · exact fun all => ⟨all.2.2,by omega⟩
  rw [tableLookup (by decide),found,Option.getD_some,rules]
  change [qqRule].find? (·.matchesParts (47 :: rest) (tableScan (47 :: rest))) = none ↔ _
  rw [List.find?_singleton,← matched]
  cases qqRule.matchesParts (47 :: rest) (tableScan (47 :: rest)) <;> simp

structure LookupAgrees (host url : Bytes) : Prop where
  swap (x y : Host) : httpHostCmp x y.host = (httpHostCmp y x.host).swap
  trans (x y z : Host) : (httpHostCmp x y.host).isLE = true → (httpHostCmp y z.host).isLE = true →
    (httpHostCmp x z.host).isLE = true
  equal (x : Host) (key : Bytes) : httpHostCmp x key = .eq ↔ cstr x.host = cstr key
  same : (ngxHttpUrlRuleGetIn (host ++ url)).1 = ngxHttpUrlFileCache host url
  forbiden (cacheHost : Host) : cacheHost ∈ httpCacheHostUrl → cacheHost.forbiden = true → cacheHost.host = host →
    (ngxHttpUrlRuleGetIn (host ++ url)).1 = some httpForbidenRule
  bytes : (ngxHttpUrlRuleGetIn (host ++ url)).2 = host ++ url

theorem oneFlag : ∀ x ∈ httpCacheHostUrl,∀ y ∈ httpCacheHostUrl,x.host = y.host → x.forbiden = y.forbiden := by
  decide

theorem forbiddenFor {cacheHost : Host} (mem : cacheHost ∈ httpCacheHostUrl) (forbiden : cacheHost.forbiden = true) :
    ruleFor cacheHost.host url = some httpForbidenRule := by
  unfold ruleFor
  cases found : httpCacheHostUrl.find? fun other => cstr other.host == cacheHost.host with
  | none =>
    have missed := List.find?_eq_none.mp found cacheHost mem
    rw [cstrOfNoNul (tableClean cacheHost mem)] at missed
    exact absurd (beq_self_eq_true _) missed
  | some other =>
    obtain ⟨inside,name⟩ := foundHost found
    dsimp only
    rw [if_pos ((oneFlag other inside cacheHost mem name).trans forbiden)]

/-- The lookup in the tree is the lookup in the table but for the host whose rule names an empty file part, and there
for the URLs in which the query is a bare question mark. -/
theorem lookupAgreement (named : host ≠ []) (plain : 47 ∉ host) (clean : (0 : Byte) ∉ host)
    (text : (0 : Byte) ∉ 47 :: rest) :
    LookupAgrees host (47 :: rest) ↔ ¬(host = qqHost ∧ oddUrl (47 :: rest)) := by
  have found := ruleGetIn named plain clean text
  have agree : ruleFor host (47 :: rest) = ngxHttpUrlFileCache host (47 :: rest) ↔
      ¬(host = qqHost ∧ oddUrl (47 :: rest)) := by
    by_cases qq : host = qqHost
    · rw [qq,qqTree text,eq_comm,qqTable text]
      simp
    · exact ⟨fun _ both => qq both.1,fun _ => lookupsAgree qq clean text⟩
  rw [← agree]
  constructor
  · intro agrees
    have same := agrees.same
    rw [found] at same
    exact same
  · exact fun same => {
      swap x y := strcmpSwap
      trans x y z := strcmpTrans
      equal x key := strcmpEq
      same := by rw [found]; exact same
      forbiden cacheHost mem forbiden name := by rw [found,← name]; exact forbiddenFor mem forbiden
      bytes := by rw [found] }

theorem showLookup : LookupAgrees (ascii "v.youku.com") (ascii "/v_show/id_1.html") :=
  (@lookupAgreement (ascii "v.youku.com") (ascii "v_show/id_1.html") (by decide) (by decide) (by decide) (by decide)).mpr
    fun both => absurd both.1 (by decide)

theorem qqLookupDiffers : ngxHttpUrlFileCache (ascii "vv.video.qq.com") (ascii "/getinfo?") = some qqRule ∧
    (ngxHttpUrlRuleGetIn (ascii "vv.video.qq.com" ++ ascii "/getinfo?")).1 = none ∧
    ¬LookupAgrees (ascii "vv.video.qq.com") (ascii "/getinfo?") := by
  have table : ngxHttpUrlFileCache (ascii "vv.video.qq.com") (ascii "/getinfo?") = some qqRule := by decide
  have tree : (ngxHttpUrlRuleGetIn (ascii "vv.video.qq.com" ++ ascii "/getinfo?")).1 = none := by decide
  refine ⟨table,tree,fun agrees => ?_⟩
  have same := agrees.same
  rw [table,tree] at same
  cases same

end lookups

end MipsElfExec.Snooping
