import MipsElfExec.Avllib.Table
import MipsElfExec.Snooping.Mime

/-! The trees of mime types and of hosts, which ngx_http_snooping_init fills from the tables and which only hold
pointers into them. -/
namespace MipsElfExec.Snooping
open Access Avllib CString

variable (M : Memory) (mimeCmp : MimeType → Bytes → Int) (hostCmp : Host → Bytes → Int)

inductive HttpTree where
  | httpMimeTree | httpCacheHostTree
  deriving DecidableEq, Repr

section tables
variable (base stride : Nat) (wide : nodeSize ≤ stride)

def initMimeTree (room : base + stride * httpMimeType.length ≤ addressSpace) : Checked (Avllib.Memory HttpTree MimeType) :=
  insertAll mimeCmp M.node .httpMimeTree (Avllib.Memory.array HttpTree base stride httpMimeType wide room)
    (addrs (slots base stride httpMimeType))

def initHostTree (room : base + stride * httpCacheHostUrl.length ≤ addressSpace) : Checked (Avllib.Memory HttpTree Host) :=
  insertAll hostCmp Host.host .httpCacheHostTree (Avllib.Memory.array HttpTree base stride httpCacheHostUrl wide room)
    (addrs (slots base stride httpCacheHostUrl))

end tables

def intOf : Ordering → Int
  | .lt => -1
  | .eq => 0
  | .gt => 1

theorem sideOfInt {δ κ : Type} (cmp : δ → κ → Ordering) : sideBy (fun d k => intOf (cmp d k)) = cmp := by
  have back (o : Ordering) : (if intOf o = 0 then Ordering.eq else if intOf o < 0 then .lt else .gt) = o := by
    cases o <;> rfl
  funext d k
  exact back (cmp d k)

/-- Wherever the tables lie, the two loops come to their ends, and what avlSearch then finds under a key is the element
that the search of the recursive tree finds. -/
theorem initTreesSearch (mimeSide : sideBy mimeCmp = httpSnoopingMimeCmp M) (hostSide : sideBy hostCmp = httpHostCmp)
    {base stride base' stride' : Nat} (wide : nodeSize ≤ stride) (room : base + stride * httpMimeType.length ≤ addressSpace)
    (wide' : nodeSize ≤ stride') (room' : base' + stride' * httpCacheHostUrl.length ≤ addressSpace) :
    (∃ m,initMimeTree M mimeCmp base stride wide room = .ok m ∧ ∀ key,∃ p,
      avlSearch mimeCmp m key avlMaxHeight (m.root .httpMimeTree) = .ok p ∧
      p.map (fun a => (m.node a).map AvlNode.data) = (Avl.avlSearch (httpSnoopingMimeCmp M) (httpMimeTree M) key).map some) ∧
    ∃ m,initHostTree hostCmp base' stride' wide' room' = .ok m ∧ ∀ key,∃ p,
      avlSearch hostCmp m key avlMaxHeight (m.root .httpCacheHostTree) = .ok p ∧
      p.map (fun a => (m.node a).map AvlNode.data) = (Avl.avlSearch httpHostCmp httpCacheHostTree key).map some := by
  constructor
  · have found := tableSearch mimeCmp M.node wide room HttpTree.httpMimeTree
    rw [mimeSide] at found
    unfold httpMimeTree
    exact found
  · have found := tableSearch hostCmp Host.host wide' room' HttpTree.httpCacheHostTree
    rw [hostSide] at found
    exact found

theorem initTreesSearch_little : let M : Memory := ⟨.little,fun _ => [],[]⟩
    (∃ m,initMimeTree M (fun d k => intOf (httpSnoopingMimeCmp M d k)) 0x80400000 48 (by decide) (by decide) = .ok m ∧ ∀ key,∃ p,
      avlSearch (fun d k => intOf (httpSnoopingMimeCmp M d k)) m key avlMaxHeight (m.root .httpMimeTree) = .ok p ∧
      p.map (fun a => (m.node a).map AvlNode.data) = (Avl.avlSearch (httpSnoopingMimeCmp M) (httpMimeTree M) key).map some) ∧
    ∃ m,initHostTree (fun d k => intOf (httpHostCmp d k)) 0x80500000 64 (by decide) (by decide) = .ok m ∧ ∀ key,∃ p,
      avlSearch (fun d k => intOf (httpHostCmp d k)) m key avlMaxHeight (m.root .httpCacheHostTree) = .ok p ∧
      p.map (fun a => (m.node a).map AvlNode.data) = (Avl.avlSearch httpHostCmp httpCacheHostTree key).map some :=
  initTreesSearch _ _ _ (sideOfInt _) (sideOfInt _) (by decide) (by decide) (by decide) (by decide)

end MipsElfExec.Snooping
