import Neutron.HttpMessage
import Neutron.RuntimeText
import Neutron.Utf8Bytes

/-!
# The bytes of an HTTP request

`http_request_raw_impl` splits a URL, connects, and formats the method, the path and the host into a request. The
network is a parameter: whether an address is reached, and whether the TLS session with a host is set up.
-/

namespace Neutron.Http

open Http11 RuntimeText

structure ParsedUrl where
  host : List Char
  port : ℕ
  path : List Char
  isHttps : Bool
  deriving Repr, DecidableEq

/-- `str::parse::<u16>` -/
def parseU16 (s : List Char) : Option ℕ :=
  (decimal (match s with
    | '+' :: digits => digits
    | digits => digits)).filter (· < 2 ^ 16)

def afterScheme (url : List Char) : List Char :=
  if "http://".toList.isPrefixOf url then url.drop 7
  else if "https://".toList.isPrefixOf url then url.drop 8
  else url

/-- `rfind(':')`: the text before the last colon and the text after it. -/
def splitPort (hostPart : List Char) : Option (List Char × List Char) :=
  if ':' ∈ hostPart then
    let port := (hostPart.reverse.takeWhile (· ≠ ':')).reverse
    some (hostPart.take (hostPart.length - port.length - 1), port)
  else none

def parseUrl (url : List Char) : Except String ParsedUrl :=
  let isHttps := "https://".toList.isPrefixOf url
  let rest := afterScheme url
  let hostPart := rest.takeWhile (· ≠ '/')
  let path := if '/' ∈ rest then rest.dropWhile (· ≠ '/') else ['/']
  match splitPort hostPart with
  | some (host, port) =>
      match parseU16 port with
      | some port => .ok ⟨host, port, path, isHttps⟩
      | none => .error "Invalid port"
  | none => .ok ⟨hostPart, if isHttps then 443 else 80, path, isHttps⟩

/-- What the world outside answers: `TcpStream::connect` for an address, and the server name, the TLS setup and
the handshake for a host. -/
structure Network where
  connect : List Char → Except String Unit
  secure : List Char → Except String Unit

def address (u : ParsedUrl) : List Char := u.host ++ ':' :: (toString u.port).toList

/-- The bytes `send_request` hands to the stream. -/
def sendRequest (method host path : List Char) (body : Option (List Char)) : List UInt8 :=
  let request := method ++ " ".toList ++ path ++ " HTTP/1.1\r\nHost: ".toList ++ host
    ++ "\r\nUser-Agent: Neutron/1.0\r\nConnection: close\r\n".toList
  match body with
  | some data =>
      utf8 (request ++ "Content-Type: application/octet-stream\r\n".toList
        ++ ("Content-Length: ".toList ++ (toString (utf8 data).length).toList ++ "\r\n".toList)
        ++ "\r\n".toList) ++ utf8 data
  | none => utf8 (request ++ "\r\n".toList)

/-- The bytes that are sent, or the error before anything is. -/
def httpRequestRawImpl (net : Network) (method url : List Char) (body : Option (List Char)) :
    Except String (List UInt8) :=
  match parseUrl url with
  | .error e => .error e
  | .ok u =>
      match net.connect (address u) with
      | .error e => .error ("Connection failed: " ++ e)
      | .ok () =>
          if u.isHttps then
            match net.secure u.host with
            | .error e => .error e
            | .ok () => .ok (sendRequest method u.host u.path body)
          else .ok (sendRequest method u.host u.path body)

/-! ## What is meant -/

def hostName : Bytes := utf8 "Host".toList
def agentName : Bytes := utf8 "User-Agent".toList
def connectionName : Bytes := utf8 "Connection".toList
def typeName : Bytes := utf8 "Content-Type".toList
def lengthName : Bytes := utf8 "Content-Length".toList
def agentValue : Bytes := utf8 "Neutron/1.0".toList
def connectionValue : Bytes := utf8 "close".toList
def typeValue : Bytes := utf8 "application/octet-stream".toList

/-- The request with this method, the path and host of a URL, and this body. -/
def requestOf (method host path : List Char) (body : Option (List Char)) : Request where
  method := utf8 method
  target := utf8 path
  fields := [(hostName, utf8 host), (agentName, agentValue),
      (connectionName, connectionValue)] ++
    match body with
    | some data => [(typeName, typeValue),
        (lengthName, writeDecimal (utf8 data).length)]
    | none => []
  content := ((body.map utf8).getD [])

/-- The bytes are one request, with nothing after it: the method and the path in its request line, exactly these
fields, and the given body. -/
def CarriesOne (method : List Char) (u : ParsedUrl) (body : Option (List Char)) (bytes : List UInt8) : Prop :=
  readRequest bytes = some ((requestOf method u.host u.path body).stripped, [])

/-- The network lets the request through. -/
def Network.Reaches (net : Network) (u : ParsedUrl) : Prop :=
  net.connect (address u) = .ok () ∧ (u.isHttps = true → net.secure u.host = .ok ())

/-- The method is a token, the path has neither blanks nor controls, the host no controls. -/
structure Clean (method : List Char) (u : ParsedUrl) : Prop where
  method : IsToken (utf8 method)
  path : IsTarget (utf8 u.path)
  host : IsFieldText (utf8 u.host)

/-! ## The bytes are the written request -/

theorem utf8_ascii {s : List Char} (h : ∀ c ∈ s, IsAscii c) : utf8 s = s.map fun c => UInt8.ofNat c.toNat := by
  induction s with
  | nil => rfl
  | cons c s ih =>
      rw [utf8_ascii_cons (h c List.mem_cons_self), ih (fun d hd => h d (List.mem_cons_of_mem _ hd)), List.map_cons]

theorem utf8_toString (n : ℕ) : utf8 (toString n).toList = writeDecimal n := by
  have hdigits : (toString n).toList = Nat.toDigits 10 n := Nat.toList_repr
  have hascii : ∀ c ∈ Nat.toDigits 10 n, IsAscii c := by
    intro c hc
    have hrange := toNat_digit (Nat.isDigit_of_mem_toDigits (by decide) (by decide) hc)
    unfold IsAscii
    omega
  rw [hdigits, utf8_ascii hascii, writeDecimal]

theorem sendRequest_eq_write (method host path : List Char) (body : Option (List Char)) :
    sendRequest method host path body = (requestOf method host path body).write := by
  have hspace : utf8 " ".toList = [space] := by decide
  have hversion : utf8 " HTTP/1.1\r\nHost: ".toList =
      space :: version ++ [cr, lf] ++ hostName ++ [colon, space] := by decide
  have hagent : utf8 "\r\nUser-Agent: Neutron/1.0\r\nConnection: close\r\n".toList =
      [cr, lf] ++ agentName ++ [colon, space] ++ agentValue ++ [cr, lf] ++
        connectionName ++ [colon, space] ++ connectionValue ++ [cr, lf] := by decide
  have htype : utf8 "Content-Type: application/octet-stream\r\n".toList =
      typeName ++ [colon, space] ++ typeValue ++ [cr, lf] := by decide
  have hlength : utf8 "Content-Length: ".toList = lengthName ++ [colon, space] := by decide
  have hend : utf8 "\r\n".toList = [cr, lf] := by decide
  cases body with
  | none =>
      simp only [sendRequest, utf8_append, hspace, hversion, hagent, hend, requestOf, Request.write, writeFields,
        List.append_nil, List.flatMap_cons, List.flatMap_nil, List.append_assoc, List.cons_append, List.nil_append,
        Option.map_none, Option.getD_none]
  | some data =>
      simp only [sendRequest, utf8_append, hspace, hversion, hagent, htype, hlength, hend, utf8_toString, requestOf,
        Request.write, writeFields, List.append_nil, List.flatMap_cons, List.flatMap_nil, List.append_assoc,
        List.cons_append, List.nil_append, Option.map_some, Option.getD_some]

theorem strip_writeDecimal (n : ℕ) : strip (writeDecimal n) = writeDecimal n := by
  have hblank : ∀ b ∈ writeDecimal n, isBlank b = false := by
    intro b hb
    obtain ⟨c, hc, rfl⟩ := List.mem_map.mp hb
    obtain ⟨heq, hrange⟩ := toNat_digit (Nat.isDigit_of_mem_toDigits (by decide) (by decide) hc)
    have h32 : UInt8.ofNat c.toNat ≠ 32 := fun h => by rw [h] at heq; simp at heq; omega
    have h9 : UInt8.ofNat c.toNat ≠ 9 := fun h => by rw [h] at heq; simp at heq; omega
    rw [isBlank, decide_eq_false h32, decide_eq_false h9]
    rfl
  have hdrop (t : Bytes) (ht : ∀ b ∈ t, isBlank b = false) : t.dropWhile isBlank = t := by
    cases t with
    | nil => rfl
    | cons b t => rw [List.dropWhile_cons, ht b List.mem_cons_self, if_neg Bool.false_ne_true]
  rw [strip, hdrop _ hblank, hdrop _ (fun b hb => hblank b (List.mem_reverse.mp hb)), List.reverse_reverse]

/-- The announced length is the number of bytes of the body. -/
theorem announced_requestOf (method host path : List Char) (body : Option (List Char)) :
    announced (requestOf method host path body).stripped.fields =
      some (requestOf method host path body).content.length := by
  have hhost : hostName.map lower ≠ transferEncoding ∧ hostName.map lower ≠ contentLength := by decide
  have hagent : agentName.map lower ≠ transferEncoding ∧ agentName.map lower ≠ contentLength := by decide
  have hconnection : connectionName.map lower ≠ transferEncoding ∧ connectionName.map lower ≠ contentLength := by
    decide
  have htype : typeName.map lower ≠ transferEncoding ∧ typeName.map lower ≠ contentLength := by decide
  have hlength : lengthName.map lower = contentLength ∧ contentLength ≠ transferEncoding := by decide
  cases body with
  | none => simp [announced, requestOf, Request.stripped, hhost, hagent, hconnection]
  | some data =>
      simp [announced, requestOf, Request.stripped, hhost, hagent, hconnection, htype, hlength, strip_writeDecimal,
        readDecimal_writeDecimal]

theorem wellFormed_requestOf_iff (method : List Char) (u : ParsedUrl) (body : Option (List Char)) :
    (requestOf method u.host u.path body).WellFormed ↔ Clean method u := by
  constructor
  · intro h
    exact ⟨h.method, h.target, h.values (hostName, utf8 u.host) List.mem_cons_self⟩
  · intro h
    have hnames : ∀ f ∈ (requestOf method u.host u.path body).fields, IsToken f.1 := by
      have hhost : IsToken hostName := by decide
      have hagent : IsToken agentName := by decide
      have hconnection : IsToken connectionName := by decide
      have htype : IsToken typeName := by decide
      have hlength : IsToken lengthName := by decide
      cases body <;> simp [requestOf, hhost, hagent, hconnection, htype, hlength]
    have hvalues : ∀ f ∈ (requestOf method u.host u.path body).fields, IsFieldText f.2 := by
      have hagent : IsFieldText agentValue := by decide
      have hconnection : IsFieldText connectionValue := by decide
      have htype : IsFieldText typeValue := by decide
      have hlength (n : ℕ) : IsFieldText (writeDecimal n) := by
        intro b hb
        obtain ⟨c, hc, rfl⟩ := List.mem_map.mp hb
        obtain ⟨heq, hrange⟩ := toNat_digit (Nat.isDigit_of_mem_toDigits (by decide) (by decide) hc)
        rw [isFieldByte, isTargetByte, heq, Bool.or_eq_true, Bool.and_eq_true, decide_eq_true_iff, decide_eq_true_iff]
        omega
      cases body <;> simp [requestOf, h.host, hagent, hconnection, htype, hlength]
    exact ⟨h.method, h.path, hnames, hvalues, announced_requestOf method u.host u.path body⟩

theorem carriesOne_iff (method : List Char) (u : ParsedUrl) (body : Option (List Char)) :
    CarriesOne method u body (sendRequest method u.host u.path body) ↔ Clean method u := by
  have hread := readRequest_write_iff (r := requestOf method u.host u.path body) []
  rw [List.append_nil] at hread
  rw [CarriesOne, sendRequest_eq_write, hread, wellFormed_requestOf_iff]

/-! ## What is sent -/

theorem httpRequestRawImpl_ok_iff (net : Network) (method url : List Char) (body : Option (List Char))
    (bytes : List UInt8) :
    httpRequestRawImpl net method url body = .ok bytes ↔
      ∃ u, parseUrl url = .ok u ∧ net.Reaches u ∧ bytes = sendRequest method u.host u.path body := by
  constructor
  · intro h
    unfold httpRequestRawImpl at h
    split at h
    · cases h
    · rename_i u hparse
      split at h
      · cases h
      · rename_i hconnect
        split at h
        · split at h
          · cases h
          · rename_i hsecure
            cases h
            exact ⟨u, hparse, ⟨hconnect, fun _ => hsecure⟩, rfl⟩
        · rename_i hhttps
          cases h
          exact ⟨u, hparse, ⟨hconnect, fun hh => absurd hh hhttps⟩, rfl⟩
  · rintro ⟨u, hparse, ⟨hconnect, hsecure⟩, rfl⟩
    simp only [httpRequestRawImpl, hparse, hconnect]
    by_cases hhttps : u.isHttps = true
    · rw [if_pos hhttps, hsecure hhttps]
    · rw [if_neg hhttps]

/-- Whatever is sent is exactly one request, for the given method, path and body, if and only if the method is a
token, the path has no blanks and no controls and the host no controls, wherever the connection is made. -/
theorem request_not_split_iff (net : Network) (method url : List Char) (body : Option (List Char)) :
    (∀ bytes, httpRequestRawImpl net method url body = .ok bytes →
      ∃ u, parseUrl url = .ok u ∧ CarriesOne method u body bytes) ↔
      ∀ u, parseUrl url = .ok u → net.Reaches u → Clean method u := by
  constructor
  · intro h u hparse hreaches
    obtain ⟨v, hv, hcarries⟩ := h _ ((httpRequestRawImpl_ok_iff net method url body _).mpr ⟨u, hparse, hreaches, rfl⟩)
    rw [hparse] at hv
    cases hv
    exact (carriesOne_iff method u body).mp hcarries
  · intro h bytes hsent
    obtain ⟨u, hparse, hreaches, rfl⟩ := (httpRequestRawImpl_ok_iff net method url body bytes).mp hsent
    exact ⟨u, hparse, (carriesOne_iff method u body).mpr (h u hparse hreaches)⟩

/-- Only one plain server answers. -/
def oneServer : Network where
  connect addr := if addr = "example.com:80".toList then .ok () else .error "unreachable"
  secure _ := .error "no certificate"

/-- A path that ends the request line and adds a field. -/
def addingUrl : List Char := "http://example.com/ HTTP/1.1\r\nX-Added: 1\r\nAccept: a".toList

theorem request_split : ¬ ∀ (net : Network) (method url : List Char) (body : Option (List Char)) (bytes : List UInt8),
    httpRequestRawImpl net method url body = .ok bytes →
      ∃ u, parseUrl url = .ok u ∧ CarriesOne method u body bytes := by
  intro h
  have hparse : parseUrl addingUrl =
      .ok ⟨"example.com".toList, 80, "/ HTTP/1.1\r\nX-Added: 1\r\nAccept: a".toList, false⟩ := by decide
  obtain ⟨u, hu, hcarries⟩ := h oneServer "GET".toList addingUrl none _
    ((httpRequestRawImpl_ok_iff _ _ _ _ _).mpr ⟨_, hparse, ⟨by decide, nofun⟩, rfl⟩)
  rw [hparse] at hu
  cases hu
  exact absurd ((carriesOne_iff _ _ _).mp hcarries).path (by decide)

end Neutron.Http
