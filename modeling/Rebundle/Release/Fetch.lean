import Rebundle.Failure
import Rebundle.Number.Reader
import Rebundle.Text.Blank
import Rebundle.World

/-!
# Fetching

A request is sent to a network, which answers with a body or refuses. A refusal by the network is a
failure of the fetch; what else can go wrong there comes through unchanged.

What a request asks for is an address. It may be wrapped in blanks, in angle brackets and in a leading
`URL:`; it needs a scheme, and an empty fragment is dropped. Square brackets in the name of its host
must not stand alone.
-/

namespace Rebundle

namespace Address

/-- The address without what it is wrapped in. -/
def unwrap (t : Text) : Text :=
  let bare := t.trim
  let open? := bare.head? == some ('<' : CodePoint)
  let close? := bare.getLast? == some ('>' : CodePoint)
  let bare := if open? && close? then Text.trim (bare.drop 1).dropLast else bare
  match Text.after? "URL:" bare with
  | some rest => rest.trim
  | none => bare

/-- The address without a number sign that ends it. -/
def dropEmptyFragment (t : Text) : Text :=
  if t.getLast? == some ('#' : CodePoint) then t.dropLast else t

/-- The part in front of the last number sign. -/
def beforeFragment (t : Text) : Text :=
  let mark : CodePoint := '#'
  if t.contains mark then ((t.reverse.dropWhile (· != mark)).drop 1).reverse else t

/-- Whether an address begins with a scheme: a name, and a colon before any slash. -/
def hasScheme (t : Text) : Bool :=
  let name := t.takeWhile fun c => c != ('/' : CodePoint) && c != (':' : CodePoint)
  !name.isEmpty && t[name.length]? == some (':' : CodePoint)

/-- Whether a text is the name of a scheme: a letter, and letters, digits and `+-.` behind it. -/
def isSchemeName (t : Text) : Bool :=
  match t.mapM CodePoint.char? with
  | some (c :: rest) =>
      c.isAlpha && rest.all fun d => d.isAlphanum || d == '+' || d == '-' || d == '.'
  | _ => false

/-- What follows the scheme of an address, without the line ends and tabs in it. -/
def behindScheme (form : Text) : Text :=
  let bare := form.dropWhile fun c => c.val ≤ 0x20
  let bare := bare.filter fun c => c.val != 9 && c.val != 10 && c.val != 13
  match Text.cut? ':' bare with
  | some (scheme, rest) => if isSchemeName scheme then rest else bare
  | none => bare

/-- The host of an address, with what belongs to its name. -/
def host (form : Text) : Text :=
  match Text.after? "//" (behindScheme form) with
  | some rest => rest.takeWhile fun c =>
      c != ('/' : CodePoint) && c != ('?' : CodePoint) && c != ('#' : CodePoint)
  | none => []

/-- Whether one of the square brackets stands in a text without the other. -/
def hasLoneBracket (t : Text) : Bool :=
  t.contains ('[' : CodePoint) != t.contains (']' : CodePoint)

/-- The address in the form in which it is requested. -/
def resolve (t : Text) : Except AddressFault Text :=
  let bare := unwrap t
  let form := dropEmptyFragment bare
  if !hasScheme (beforeFragment bare) then .error (.noScheme form)
  else if hasLoneBracket (host form) then .error .openBracket
  else .ok form

end Address

namespace Timeout

/-- How long a request may take, in seconds, when the environment does not say. -/
def standard : Number := .real (Binary64.ofRatio false 60 1)

/-- The timeout that the environment variable sets; blank counts as not set. -/
def ofVariable (value : Option Text) : Except TimeoutFault Number :=
  match value with
  | none => .ok standard
  | some given =>
      if given.trim.isEmpty then .ok standard
      else
        match Binary64.ofText? given with
        | none => .error (.notANumber given)
        | some seconds =>
            if (Number.whole 0).below (.real seconds) then .ok (.real seconds)
            else .error (.notPositive given)

end Timeout

/-- Why a network gives no body. -/
inductive NetworkFault where
  | refused (message : Text)
  | broken (kind : ForeignKind) (message : Text)

/-- The body that stands at an address. -/
abbrev Network := Text → Except NetworkFault Bytes

namespace Network

def agent : Text := "bunpatch"

/-- Answers a request that was sent for an address. -/
def answer (network : Network) (url sent : Text) (timeout : Number) : Exchange Bytes :=
  let log := [Log.debug ("GET " ++ url)]
  let requests := [⟨sent, timeout, agent⟩]
  match network sent with
  | .ok body =>
      { result := .ok body
        requests := requests
        log := log ++ [Log.debug
          ("received " ++ Text.ofNat body.length ++ " bytes from " ++ url)] }
  | .error (.refused message) =>
      { result := .error (.fetch ("request for " ++ url ++ " failed: " ++ message) (some url))
        requests := requests
        log := log }
  | .error (.broken kind message) => ⟨.error (.foreign kind message), requests, log⟩

/-- Fetches a body. Without a given timeout the environment variable tells it. -/
def fetch (network : Network) (environment? : Option Text) (timeout? : Option Number) (url : Text) :
    Exchange Bytes :=
  let timeout : Except TimeoutFault Number := match timeout? with
    | some timeout => .ok timeout
    | none => Timeout.ofVariable environment?
  match timeout with
  | .error fault => ⟨.error (.timeout fault), [], []⟩
  | .ok timeout =>
      match Address.resolve url with
      | .error fault => ⟨.error (.address fault), [], []⟩
      | .ok sent => network.answer url sent timeout

/-- Fetches a body as text, with replacement characters for what cannot be decoded. -/
def fetchText (network : Network) (environment? : Option Text) (timeout? : Option Number)
    (url : Text) : Exchange Text :=
  let exchange := network.fetch environment? timeout? url
  { exchange with result := exchange.result.map Utf8.decodeReplaced }

/-- The network as a remote, which answers a question the same way every time. -/
def remote (network : Network) (environment? : Option Text) : Remote where
  bytes url _ := network.fetch environment? none url
  text url _ := network.fetchText environment? none url

end Network

end Rebundle
