import Mathlib.Algebra.Order.Ring.Nat
import MipsElfExec.Lib.CString
import MipsElfExec.Lib.Avl

/-! Which cache rule a URL falls under: the host table and its search tree, and the
match of a rule against the slash-separated parts of the resource. -/
namespace MipsElfExec.Snooping
open CString Avl

structure CacheFlg where
  headXiegan : Bool := false
  midXiegan : Bool := false
  tailXiegan : Bool := false
  postFile : Bool := false
  para : Bool := false
  actionCacheSp : Bool := false
  actionCacheUpstream : Bool := false
  actionUpparse : Bool := false
  spWrite : Bool := false
  redirectPara : Bool := false
  forbiden : Bool := false
  conClose : Bool := false
  homepagePoll : Bool := false
  deriving DecidableEq, Repr

def httpCacheKeyHost : Nat := 1
def httpCacheKeyXiegan (n : Nat) : Nat := 2 ^ n
def httpCacheKeyPara : Nat := 2 ^ 11
def httpCacheKeyFile : Nat := 2 ^ 12

inductive KeyParse where
  | arkLetvCom | qqCom | sohuM3u8File | sohu | youkuAndriod | plYouku
  deriving DecidableEq, Repr

structure Rule where
  cacheFlg : CacheFlg
  keyFlg : Nat
  headXiegan : Bytes := []
  midXiegan : Bytes := []
  tailXiegan : Bytes := []
  postFile : Bytes := []
  para : Bytes := []
  urlFileKeyParse : Option KeyParse := none
  urlParaKeyParse : Option KeyParse := none
  deriving DecidableEq, Repr

structure Host where
  forbiden : Bool
  host : Bytes
  urlCache : List Rule
  deriving DecidableEq, Repr

def upstreamFile : CacheFlg :=
  { postFile := true,actionCacheUpstream := true,redirectPara := true,conClose := true }
def parsePage : CacheFlg := { actionCacheSp := true,actionUpparse := true,conClose := true }
def upstreamTail : CacheFlg :=
  { tailXiegan := true,redirectPara := true,actionCacheUpstream := true,conClose := true }

def httpCacheFile : List Rule := [
  { cacheFlg := { upstreamFile with headXiegan := true },keyFlg := httpCacheKeyXiegan 1 + httpCacheKeyFile,
    headXiegan := ascii "/youku",postFile := ascii ".flv" },
  { cacheFlg := { upstreamFile with headXiegan := true },keyFlg := httpCacheKeyXiegan 1 + httpCacheKeyFile,
    headXiegan := ascii "/youku",postFile := ascii ".mp4" },
  { cacheFlg := upstreamTail,keyFlg := httpCacheKeyFile + httpCacheKeyPara,
    tailXiegan := ascii "/ipad",urlParaKeyParse := some .sohu },
  { cacheFlg := { upstreamFile with headXiegan := true },keyFlg := httpCacheKeyXiegan 1 + httpCacheKeyFile,
    headXiegan := ascii "/sohu.vodnew.lxdns.com",postFile := ascii ".mp4" },
  { cacheFlg := upstreamFile,keyFlg := httpCacheKeyFile,postFile := ascii ".flv" },
  { cacheFlg := upstreamFile,keyFlg := httpCacheKeyFile,postFile := ascii ".mp4" },
  { cacheFlg := { parsePage with postFile := true,redirectPara := true },keyFlg := httpCacheKeyFile,
    postFile := ascii ".m3u8" },
  { cacheFlg :=
      { headXiegan := true,midXiegan := true,tailXiegan := true,actionCacheSp := true,homepagePoll := true,
        conClose := true },
    keyFlg := httpCacheKeyFile,tailXiegan := ascii "/" }]

def httpYoukuVidoeHtmlUrlStr : List Rule := [
  { cacheFlg := { parsePage with headXiegan := true,postFile := true },keyFlg := httpCacheKeyHost + httpCacheKeyFile,
    headXiegan := ascii "/v_show",postFile := ascii ".html" },
  { cacheFlg := { parsePage with headXiegan := true,postFile := true },keyFlg := httpCacheKeyHost + httpCacheKeyFile,
    headXiegan := ascii "/v_show",postFile := ascii ".shtml" }]

def httpForbidenRule : Rule := { cacheFlg := { forbiden := true },keyFlg := 0 }

def httpPlYoukuFlvpathUrlStr : List Rule := [
  { cacheFlg := { parsePage with headXiegan := true,tailXiegan := true },
    keyFlg := httpCacheKeyHost + httpCacheKeyXiegan 1 + httpCacheKeyXiegan 2 + httpCacheKeyPara,
    headXiegan := ascii "/playlist",tailXiegan := ascii "/m3u8",urlParaKeyParse := some .plYouku }]

def httpSohuFlvpathUrlStr : List Rule := [
  { cacheFlg := { parsePage with headXiegan := true,postFile := true },keyFlg := httpCacheKeyHost + httpCacheKeyFile,
    headXiegan := ascii "/ipad",postFile := ascii ".m3u8",urlFileKeyParse := some .sohuM3u8File },
  { cacheFlg := { parsePage with postFile := true },keyFlg := httpCacheKeyHost + httpCacheKeyFile,
    postFile := ascii ".m3u8",urlFileKeyParse := some .sohuM3u8File }]

def httpYoukuAndriodFlvpathUrlStr : List Rule := [
  { cacheFlg := { parsePage with tailXiegan := true },keyFlg := httpCacheKeyPara,
    headXiegan := ascii "/common",midXiegan := ascii "/v3",tailXiegan := ascii "/play",
    urlParaKeyParse := some .youkuAndriod }]

def httpValfAtmYoukuComRule : List Rule := [
  { cacheFlg := upstreamTail,keyFlg := httpCacheKeyHost + httpCacheKeyFile,tailXiegan := ascii "/vf" },
  { cacheFlg := upstreamTail,keyFlg := httpCacheKeyHost + httpCacheKeyFile,tailXiegan := ascii "/adv" }]

def httpMAtySohuComRule : List Rule := [
  { cacheFlg := upstreamTail,keyFlg := httpCacheKeyHost + httpCacheKeyFile,tailXiegan := ascii "/m" }]

def qiyiVideo : CacheFlg :=
  { headXiegan := true,redirectPara := true,actionCacheSp := true,actionCacheUpstream := true,conClose := true }

def httpWscctcdnInterQiyiComRule : List Rule := [
  { cacheFlg := qiyiVideo,keyFlg := httpCacheKeyFile,headXiegan := ascii "/videos",postFile := ascii ".f4v" },
  { cacheFlg := qiyiVideo,keyFlg := httpCacheKeyFile,headXiegan := ascii "/videos",postFile := ascii ".ts" }]

def httpCacheMIqiyiComRule : List Rule := [
  { cacheFlg := { parsePage with headXiegan := true,postFile := true },keyFlg := httpCacheKeyHost + httpCacheKeyFile,
    headXiegan := ascii "/dc",postFile := ascii ".m3u8" }]

def httpCacheVvVideoQqComRule : List Rule := [
  { cacheFlg := { parsePage with tailXiegan := true,postFile := true },
    keyFlg := httpCacheKeyHost + httpCacheKeyFile + httpCacheKeyPara,
    tailXiegan := ascii "/getinfo",urlParaKeyParse := some .qqCom }]

def httpCacheArkLetvComRule : List Rule := [
  { cacheFlg := upstreamTail,keyFlg := httpCacheKeyHost + httpCacheKeyFile + httpCacheKeyPara,
    tailXiegan := ascii "/s",urlParaKeyParse := some .arkLetvCom }]

def allowed (host : String) (urlCache : List Rule) : Host := ⟨false,ascii host,urlCache⟩
def forbidden (host : String) : Host := ⟨true,ascii host,[httpForbidenRule]⟩

def httpCacheHostUrl : List Host := [
  allowed "v.youku.com" httpYoukuVidoeHtmlUrlStr,
  allowed "pl.youku.com" httpPlYoukuFlvpathUrlStr,
  allowed "my.tv.sohu.com" httpSohuFlvpathUrlStr,
  allowed "hot.vrs.sohu.com" httpSohuFlvpathUrlStr,
  allowed "play.api.3g.youku.com" httpYoukuAndriodFlvpathUrlStr,
  forbidden "Fvid.atm.youku.com",
  forbidden "atm.youku.com",
  forbidden "html.atm.youku.com",
  forbidden "valb.atm.youku.com",
  allowed "valf.atm.youku.com" httpValfAtmYoukuComRule,
  forbidden "valo.atm.youku.com",
  forbidden "valp.atm.youku.com",
  forbidden "lstat.youku.com",
  forbidden "speed.lstat.youku.com",
  forbidden "urchin.lstat.youku.com",
  forbidden "stat.youku.com",
  forbidden "static.lstat.youku.com",
  forbidden "valc.atm.youku.com",
  forbidden "vid.atm.youku.com",
  forbidden "walp.atm.youku.com",
  allowed "ad.api.3g.youku.com" httpValfAtmYoukuComRule,
  allowed "m.aty.sohu.com" httpMAtySohuComRule,
  allowed "wscctcdn.inter.qiyi.com" httpWscctcdnInterQiyiComRule,
  allowed "data.video.iqiyi.com" httpWscctcdnInterQiyiComRule,
  allowed "cache.m.iqiyi.com" httpCacheMIqiyiComRule,
  allowed "vv.video.qq.com" httpCacheVvVideoQqComRule,
  allowed "ark.letv.com" httpCacheArkLetvComRule]

def httpCacheDefaultHostUrl : Host := ⟨false,[],httpCacheFile⟩

def strcmp : Bytes → Bytes → Ordering
  | [],[] => .eq
  | [],_ :: _ => .lt
  | _ :: _,[] => .gt
  | a :: s,b :: t => if a < b then .lt else if b < a then .gt else strcmp s t

def httpHostCmp (host : Host) (key : Bytes) : Ordering := strcmp (cstr host.host) (cstr key)

def httpCacheHostTree : Avl.Tree Host :=
  httpCacheHostUrl.foldl (fun tree host => avlInsert httpHostCmp host host.host tree) .nil

structure Xiegan where
  seen : Nat
  head : Nat
  mid : Nat
  tail : Nat
  post : Nat
  para : Nat
  deriving DecidableEq, Repr

def Xiegan.slash (x : Xiegan) (i : Nat) : Xiegan :=
  match x.seen with
  | 0 => { x with seen := 1,head := i,mid := i,tail := i }
  | 1 => { x with seen := 2,mid := i,tail := i }
  | _ => { x with tail := i }

def xieganScan : Bytes → Nat → Xiegan → Xiegan
  | [],_,x => x
  | b :: bs,i,x =>
    if b = 47 then xieganScan bs (i + 1) (x.slash i)
    else if b = 46 then xieganScan bs (i + 1) { x with post := i }
    else if b = 63 then { x with para := i }
    else xieganScan bs (i + 1) x

def slice (s : Bytes) (start stop : Nat) : Bytes := (s.drop start).take (stop - start)

def Rule.accepts (rule : Rule) (res : Bytes) : Bool :=
  let x := xieganScan res 0 ⟨0,0,0,0,0,res.length⟩
  (!rule.cacheFlg.headXiegan || slice res x.head x.mid == rule.headXiegan) &&
  (!rule.cacheFlg.midXiegan || slice res x.mid x.tail == rule.midXiegan) &&
  (!rule.cacheFlg.tailXiegan || slice res x.tail x.para == rule.tailXiegan) &&
  (!rule.cacheFlg.postFile || slice res x.post x.para == rule.postFile) &&
  (!rule.cacheFlg.para || slice res x.para res.length == rule.para)

def ngxHttpUrlRuleGet (url : Bytes) : Option Rule :=
  let host := url.takeWhile (· ≠ 47)
  let res := url.dropWhile (· ≠ 47)
  if res = [] ∨ host = [] then none
  else match avlSearch httpHostCmp httpCacheHostTree host with
    | some cacheHost =>
      if cacheHost.forbiden then some httpForbidenRule else cacheHost.urlCache.find? (·.accepts res)
    | none => httpCacheDefaultHostUrl.urlCache.find? (·.accepts res)

theorem tableHostFound : ∀ host ∈ httpCacheHostUrl,
    avlSearch httpHostCmp httpCacheHostTree host.host = some host := by
  decide

end MipsElfExec.Snooping
