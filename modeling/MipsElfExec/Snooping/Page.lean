import MipsElfExec.Snooping.Response

/-! A response as it comes over the wire, and what the header buffer shows of it. -/
namespace MipsElfExec.Snooping
open CString

def pktBytes (ps : List EfBuf) : Bytes := ps.flatMap EfBuf.data

structure Page where
  header : Bytes
  body : Bytes
  ends : strstr header httpEnd = some (header.length - httpEnd.length)
  length : responseContentLen header = .value body.length

def Page.text (page : Page) : Bytes := page.header ++ page.body

theorem pktBytesAppend (ps qs : List EfBuf) : pktBytes (ps ++ qs) = pktBytes ps ++ pktBytes qs :=
  List.flatMap_append

theorem headerFillTake {limit : Nat} {buf : Bytes} (fits : buf.length ≤ limit) (ps : List EfBuf) :
    headerFill limit buf ps = (buf ++ pktBytes ps).take limit := by
  induction ps generalizing buf with
  | nil => simp [headerFill,pktBytes,List.take_of_length_le fits]
  | cons p ps ih =>
    unfold headerFill
    have more : buf ++ pktBytes (p :: ps) = buf ++ p.data ++ pktBytes ps := by simp [pktBytes]
    rw [more]
    split
    · rename_i long
      have whole : limit ≤ (buf ++ p.data).length := by
        rw [List.length_append]
        omega
      rw [List.take_append_of_le_length whole,List.take_append,List.take_of_length_le fits]
    · rename_i short
      refine ih ?_
      rw [List.length_append]
      omega

theorem strstrExtends {s pat : Bytes} {n : Nat} (found : strstr s pat = some n) (t : Bytes) :
    strstr (s ++ t) pat = some n := by
  obtain ⟨rest,more⟩ := cstrAppendPrefix s t
  unfold strstr at found ⊢
  rw [← more]
  exact searchExtends found rest

theorem strstrBound {s pat : Bytes} {n : Nat} (found : strstr s pat = some n) : n + pat.length ≤ s.length :=
  (searchBound found).trans (cstrPrefix s).length_le

theorem contentLenExtends {s : Bytes} {n : Nat} (read : responseContentLen s = .value n) (t : Bytes) :
    responseContentLen (s ++ t) = .value n := by
  unfold responseContentLen at read ⊢
  split at read <;> try contradiction
  rename_i i found
  rw [strstrExtends found t]
  dsimp only at read ⊢
  rw [List.drop_append_of_le_length (strstrBound found)]
  split at read <;> try contradiction
  rename_i e line
  rw [strstrExtends line t]
  dsimp only
  rw [List.take_append_of_le_length (Nat.le_of_add_right_le (strstrBound line))]
  exact read

theorem atoiSmall {line : Bytes} {n : Nat} (read : ngxAtoi line = some n) : n < 2 ^ 31 := by
  unfold ngxAtoi at read
  split at read <;> try contradiction
  dsimp only at read
  split at read <;> try contradiction
  rename_i small
  exact Option.some.inj read ▸ Nat.lt_of_not_le small

theorem contentLenSmall {s : Bytes} {n : Nat} (read : responseContentLen s = .value n) : n < 2 ^ 31 := by
  unfold responseContentLen at read
  split at read <;> try contradiction
  dsimp only at read
  split at read <;> try contradiction
  split at read <;> try contradiction
  split at read <;> try contradiction
  rename_i value atoi
  injection read with same
  exact same ▸ atoiSmall atoi

section header
variable {header body buf : Bytes}

def Ends (header : Bytes) : Prop := strstr header httpEnd = some (header.length - httpEnd.length)

theorem headerLong (ends : Ends header) : httpEnd.length ≤ header.length := by
  have bound := strstrBound ends
  have four : httpEnd.length = 4 := rfl
  omega

theorem headerNoNul (ends : Ends header) : (0 : Byte) ∉ header := by
  have bound := searchBound ends
  have long := headerLong ends
  have same := (cstrPrefix header).eq_of_length_le (by omega)
  exact same ▸ cstrNoNul header

theorem headerShown (ends : Ends header) (part : buf <+: header ++ body) {n : Nat}
    (found : strstr buf httpEnd = some n) : n + httpEnd.length = header.length ∧ header <+: buf := by
  obtain ⟨rest,whole⟩ := part
  have first := strstrExtends found rest
  rw [whole,strstrExtends ends body] at first
  have long := headerLong ends
  have same : n + httpEnd.length = header.length := by
    have eq := Option.some.inj first
    omega
  have bound := strstrBound found
  refine ⟨same,List.prefix_of_prefix_length_le ?_ ⟨rest,whole⟩ (by omega)⟩
  exact List.prefix_append _ _

end header

section page
variable {page : Page} {buf : Bytes}

theorem pageSize (page : Page) : page.text.length = page.body.length + page.header.length := by
  rw [Page.text,List.length_append,Nat.add_comm]

theorem pageShown (part : buf <+: page.text) {n : Nat} (found : strstr buf httpEnd = some n) :
    n + httpEnd.length = page.header.length ∧ page.header <+: buf :=
  headerShown page.ends part found

theorem pageRead (header : page.header <+: buf) : ∃ rest,cstr buf = page.header ++ rest := by
  obtain ⟨rest,rfl⟩ := header
  exact ⟨cstr rest,by rw [cstrAppend,if_neg (headerNoNul page.ends)]⟩

theorem pageContentLen (header : page.header <+: buf) : responseContentLen (cstr buf) = .value page.body.length := by
  obtain ⟨rest,same⟩ := pageRead header
  rw [same]
  exact contentLenExtends page.length rest

theorem strstrCstr (s pat : Bytes) : strstr (cstr s) pat = strstr s pat := by
  unfold strstr
  rw [cstrOfNoNul (cstrNoNul s)]

theorem strchrCstr (s : Bytes) (c : Byte) : strchr (cstr s) c = strchr s c := by
  unfold strchr
  rw [cstrOfNoNul (cstrNoNul s)]

end page

end MipsElfExec.Snooping
