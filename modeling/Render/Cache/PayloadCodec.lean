/-
The format of a payload, and that the reader and the writer agree on it.

A format says which octets write a value (`Format`). The reader accepts exactly the octets of the format (`reads_payload`) and
the writer writes octets of the format (`writes_payload`), so what is written is read back. `payload_codec` puts this
together with what the reader costs and the deadline of a payload that was read.
-/
import Render.Cache.Payload

namespace Render.Cache

open Render.Core Render.Net Scan

/-! ## Formats -/

namespace Format

variable {Url : Type} (text : UrlText Url)

/-- octets behind their length, which is within a limit -/
def octets (limit : ℕ) (read value : Octets) : Prop := value.length ≤ limit ∧ read = toLe 4 value.length ++ value

def string (read : Octets) (value : String) : Prop := octets maxStringBytes read (utf8 value)

/-- a text that the parser reads as the URL -/
def url (read : Octets) (value : Url) : Prop := ∃ s, string read s ∧ text.parse s = some value

/-- elements behind their number, which is within a limit -/
def list {α : Type} (limit : ℕ) (element : Octets → α → Prop) (read : Octets) (values : List α) : Prop :=
  values.length ≤ limit ∧ ∃ parts, read = toLe 4 values.length ++ parts.flatten ∧ List.Forall₂ element parts values

def header (read : Octets) (value : Header) : Prop :=
  ∃ name rest, read = name ++ rest ∧ string name value.name ∧ octets maxStringBytes rest value.value

def headers : Octets → List Header → Prop := list maxHeaders header

def redirect (read : Octets) (value : RedirectResponse Url) : Prop :=
  ∃ first rest, read = first ++ (toLe 2 value.status.toNat ++ rest) ∧ url text first value.url ∧ headers rest value.headers

/-- `[0]` for no value, and a value behind `[1]` -/
def option {α : Type} (element : Octets → α → Prop) (read : Octets) : Option α → Prop
  | none => read = [0]
  | some value => ∃ rest, read = [1] ++ rest ∧ element rest value

def contentType (read : Octets) (value : ContentType) : Prop :=
  ∃ first rest, read = first ++ rest ∧ string first value.mediaType ∧ option string rest value.charset

def duration (read : Octets) (value : Duration) : Prop := read = toLe 8 value.asSecs ++ toLe 4 value.subsecNanos

def response (read : Octets) (value : FetchResponse Url) : Prop :=
  ∃ requestedUrl finalUrl chain redirects headers contentType body,
    read = requestedUrl ++ (finalUrl ++ (chain ++ (redirects ++ (toLe 2 value.status.toNat ++ (headers ++ (contentType ++ body)))))) ∧
    url text requestedUrl value.requestedUrl ∧ url text finalUrl value.finalUrl ∧
    list maxRedirects (url text) chain value.redirectChain ∧ list maxRedirects (redirect text) redirects value.redirects ∧
    Format.headers headers value.headers ∧ option Format.contentType contentType value.contentType ∧
    octets maxBodyBytes body value.body

/-- a complete payload -/
def payload (read : Octets) (value : DiskCachePayload Url) : Prop :=
  ∃ stored storedAt freshness rest, read = magic ++ (storedAt ++ (freshness ++ rest)) ∧ duration storedAt stored ∧
    epochCheckedAdd stored = some value.storedAt ∧ duration freshness value.freshness ∧ response text rest value.response

end Format

/-! ## The reader -/

section Reads

variable {Url : Type} {text : UrlText Url}

theorem reads_len {limit : ℕ} (hlimit : limit < 2 ^ 32) :
    Reads (Reader.len limit) fun read n => read = toLe 4 n ∧ n ≤ limit :=
  ((reads_number 4 _).bind fun n => (reads_check _).bind fun _ => reads_pure n).congr fun read n => by
    constructor
    · intro h
      obtain ⟨_, _, _, rfl, ⟨rfl, _⟩, _, _, _, rfl, ⟨rfl, hcheck⟩, rfl, rfl⟩ := h
      exact ⟨by simp, Nat.not_lt.1 (refuse_eq_ok.1 hcheck)⟩
    · intro h
      obtain ⟨rfl, hle⟩ := h
      exact ⟨n, _, [], (List.append_nil _).symm, ⟨rfl, hle.trans_lt hlimit⟩, (), [], [], rfl,
        ⟨rfl, refuse_eq_ok.2 (Nat.not_lt.2 hle)⟩, rfl, rfl⟩

theorem reads_bytesLimited {limit : ℕ} (hlimit : limit < 2 ^ 32) : Reads (Reader.bytesLimited limit) (Format.octets limit) :=
  ((reads_len hlimit).bind fun n => (reads_take n _).bind reads_copy).congr fun read value => by
    constructor
    · intro h
      obtain ⟨n, _, _, rfl, ⟨rfl, hle⟩, _, _, _, rfl, ⟨rfl, rfl⟩, rfl, rfl⟩ := h
      exact ⟨hle, by simp⟩
    · intro h
      obtain ⟨hle, rfl⟩ := h
      exact ⟨value.length, _, value, rfl, ⟨rfl, hle⟩, value, value, [], (List.append_nil _).symm, ⟨rfl, rfl⟩, rfl, rfl⟩

theorem reads_string : Reads Reader.string Format.string :=
  ((reads_bytesLimited (by decide)).bind fun octets => reads_check (Reader.utf8Text octets)).congr fun read value => by
    have hutf8 : ∀ octets, Reader.utf8Text octets = .ok value ↔ utf8 value = octets := by
      intro octets
      rw [← fromUtf8_eq_some, Reader.utf8Text]
      cases fromUtf8 octets <;> simp
    constructor
    · intro h
      obtain ⟨octets, _, _, rfl, hoctets, rfl, hvalue⟩ := h
      obtain rfl := (hutf8 octets).1 hvalue
      rw [List.append_nil]
      exact hoctets
    · intro h
      exact ⟨utf8 value, read, [], (List.append_nil _).symm, h, rfl, (hutf8 _).2 rfl⟩

theorem reads_url : Reads (Reader.url text) (Format.url text) :=
  (reads_string.bind fun s => reads_check (Reader.parseUrl text s)).congr fun read value => by
    have hparse : ∀ s, Reader.parseUrl text s = .ok value ↔ text.parse s = some value := by
      intro s
      rw [Reader.parseUrl]
      cases text.parse s <;> simp
    constructor
    · intro h
      obtain ⟨s, _, _, rfl, hs, rfl, hvalue⟩ := h
      rw [List.append_nil]
      exact ⟨s, hs, (hparse s).1 hvalue⟩
    · intro h
      obtain ⟨s, hs, hvalue⟩ := h
      exact ⟨s, read, [], (List.append_nil _).symm, hs, rfl, (hparse s).2 hvalue⟩

theorem reads_list {α : Type} {limit : ℕ} (hlimit : limit < 2 ^ 32) {element : Reader.Read α} {G : Octets → α → Prop}
    (helement : Reads element G) : Reads (Reader.list limit element) (Format.list limit G) :=
  ((reads_len hlimit).bind fun n => helement.times n).congr fun read values => by
    constructor
    · intro h
      obtain ⟨n, _, _, rfl, ⟨rfl, hle⟩, rfl, parts, rfl, hparts⟩ := h
      exact ⟨hle, parts, rfl, hparts⟩
    · intro h
      obtain ⟨hle, parts, rfl, hparts⟩ := h
      exact ⟨values.length, _, _, rfl, ⟨rfl, hle⟩, rfl, parts, rfl, hparts⟩

theorem reads_header : Reads Reader.header Format.header :=
  (reads_string.bind fun name => (reads_bytesLimited (by decide)).bind fun value =>
    reads_pure (⟨name, value⟩ : Header)).congr fun read value => by
    constructor
    · intro h
      obtain ⟨name, first, _, rfl, hname, body, rest, _, rfl, hbody, rfl, rfl⟩ := h
      exact ⟨first, rest, by simp, hname, hbody⟩
    · intro h
      obtain ⟨first, rest, rfl, hname, hbody⟩ := h
      exact ⟨value.name, first, rest, rfl, hname, value.value, rest, [], (List.append_nil _).symm, hbody, rfl, rfl⟩

theorem reads_headers : Reads Reader.headers Format.headers := reads_list (by decide) reads_header

theorem status_octets {n : ℕ} (h : n < 256 ^ 2) : (UInt16.ofNat n).toNat = n := by
  rw [UInt16.toNat_ofNat']
  exact Nat.mod_eq_of_lt h

theorem reads_redirect : Reads (Reader.redirect text) (Format.redirect text) :=
  (reads_url.bind fun url => (reads_number 2 _).bind fun status => reads_headers.bind fun headers =>
    reads_pure (⟨url, UInt16.ofNat status, headers⟩ : RedirectResponse Url)).congr fun read value => by
    constructor
    · intro h
      obtain ⟨url, first, _, rfl, hurl, n, _, _, rfl, ⟨rfl, hn⟩, headers, rest, _, rfl, hheaders, rfl, rfl⟩ := h
      refine ⟨first, rest, ?_, hurl, hheaders⟩
      rw [status_octets hn, List.append_nil]
    · intro h
      obtain ⟨first, rest, rfl, hurl, hheaders⟩ := h
      refine ⟨value.url, first, _, rfl, hurl, value.status.toNat, _, rest, rfl, ⟨rfl, value.status.toNat_lt⟩, value.headers,
        rest, [], (List.append_nil _).symm, hheaders, rfl, ?_⟩
      rw [UInt16.ofNat_toNat]

theorem reads_option {α : Type} {element : Reader.Read α} {G : Octets → α → Prop} (helement : Reads element G) :
    Reads (Reader.option element) (Format.option G) := by
  have hbody : ∀ tag : Octets, Reads (if tag = [0] then pure none
      else if tag = [1] then element >>= fun value => pure (some value) else check (.error .invalidFormat) : Reader.Read (Option α))
      fun read value => (tag = [0] ∧ read = [] ∧ value = none) ∨ (tag = [1] ∧ ∃ a, value = some a ∧ G read a) := by
    intro tag
    split_ifs with hzero hone
    · refine (reads_pure none).congr fun read value => ?_
      simp [hzero]
    · refine (helement.bind fun value => reads_pure (some value)).congr fun read value => ?_
      constructor
      · intro h
        obtain ⟨a, first, _, rfl, ha, rfl, rfl⟩ := h
        exact .inr ⟨hone, a, rfl, by rwa [List.append_nil]⟩
      · intro h
        rcases h with h | ⟨_, a, rfl, ha⟩
        · exact absurd h.1 hzero
        · exact ⟨a, read, [], (List.append_nil _).symm, ha, rfl, rfl⟩
    · refine (reads_check _).congr fun read value => ?_
      simp [hzero, hone]
  refine ((reads_take 1 _).bind hbody).congr fun read value => ?_
  constructor
  · intro h
    obtain ⟨tag, _, second, rfl, ⟨rfl, _⟩, ⟨rfl, rfl, rfl⟩ | ⟨rfl, a, rfl, ha⟩⟩ := h
    · rfl
    · exact ⟨second, rfl, ha⟩
  · intro h
    cases value with
    | none =>
      obtain rfl := h
      exact ⟨[0], [0], [], rfl, ⟨rfl, rfl⟩, .inl ⟨rfl, rfl, rfl⟩⟩
    | some a =>
      obtain ⟨rest, rfl, ha⟩ := h
      exact ⟨[1], [1], rest, rfl, ⟨rfl, rfl⟩, .inr ⟨rfl, a, rfl, ha⟩⟩

theorem reads_contentType : Reads Reader.contentTypeBody Format.contentType :=
  (reads_string.bind fun mediaType => (reads_option reads_string).bind fun charset =>
    reads_pure (⟨mediaType, charset⟩ : ContentType)).congr fun read value => by
    constructor
    · intro h
      obtain ⟨_, first, _, rfl, hfirst, _, rest, _, rfl, hrest, rfl, rfl⟩ := h
      exact ⟨first, rest, by simp, hfirst, hrest⟩
    · intro h
      obtain ⟨first, rest, rfl, hfirst, hrest⟩ := h
      exact ⟨value.mediaType, first, rest, rfl, hfirst, value.charset, rest, [], (List.append_nil _).symm, hrest, rfl, rfl⟩

theorem durationParts_iff {seconds nanos : ℕ} {d : Duration} (hseconds : seconds < 2 ^ 64) :
    durationParts seconds nanos = .ok d ↔ seconds = d.asSecs ∧ nanos = d.subsecNanos := by
  have hpos : 0 < nanosPerSec := by decide
  rw [durationParts]
  constructor
  · intro h
    split_ifs at h with hfits
    cases h
    simp only [Duration.asSecs, Duration.subsecNanos]
    have hdiv : (seconds * nanosPerSec + nanos) / nanosPerSec = seconds := by
      rw [Nat.add_comm, Nat.add_mul_div_right _ _ hpos, Nat.div_eq_of_lt hfits.1, Nat.zero_add]
    have hmod : (seconds * nanosPerSec + nanos) % nanosPerSec = nanos := by
      rw [Nat.add_comm, Nat.add_mul_mod_self_right, Nat.mod_eq_of_lt hfits.1]
    exact ⟨hdiv.symm, hmod.symm⟩
  · intro h
    obtain ⟨rfl, rfl⟩ := h
    rw [dif_pos ⟨Nat.mod_lt _ hpos, hseconds⟩]
    congr 1
    ext
    exact Nat.div_add_mod' _ _

theorem reads_duration : Reads DiskCachePayload.readDuration Format.duration :=
  ((reads_number 8 _).bind fun seconds => (reads_number 4 _).bind fun nanos =>
    reads_check (durationParts seconds nanos)).congr fun read value => by
    constructor
    · intro h
      obtain ⟨seconds, _, _, rfl, ⟨rfl, hseconds⟩, nanos, _, _, rfl, ⟨rfl, _⟩, rfl, hvalue⟩ := h
      obtain ⟨rfl, rfl⟩ := (durationParts_iff hseconds).1 hvalue
      rw [List.append_nil]
      rfl
    · intro h
      obtain rfl := h
      exact ⟨value.asSecs, _, _, rfl, ⟨rfl, value.asSecs_lt⟩, value.subsecNanos, _, [],
        (List.append_nil _).symm, ⟨rfl, value.subsecNanos_lt⟩, rfl,
        (durationParts_iff (value.asSecs_lt)).2 ⟨rfl, rfl⟩⟩

theorem storedTime_ok {stored : Duration} {storedAt : SystemTime} :
    DiskCachePayload.storedTime stored = .ok storedAt ↔ epochCheckedAdd stored = some storedAt := by
  rw [DiskCachePayload.storedTime]
  cases epochCheckedAdd stored <;> simp

theorem reads_magic : Reads DiskCachePayload.readMagic fun read _ => read = magic :=
  ((reads_take magic.length _).bind fun start => reads_check _).congr fun read value => by
    constructor
    · intro h
      obtain ⟨start, _, _, rfl, ⟨rfl, _⟩, rfl, hstart⟩ := h
      rw [List.append_nil]
      exact not_not.1 (refuse_eq_ok.1 hstart)
    · intro h
      obtain rfl := h
      exact ⟨magic, magic, [], rfl, ⟨rfl, rfl⟩, rfl, refuse_eq_ok.2 (not_not.2 rfl)⟩

theorem reads_response : Reads (DiskCachePayload.readResponse text) (Format.response text) :=
  (reads_url.bind fun requestedUrl => reads_url.bind fun finalUrl =>
    (reads_list (by decide) reads_url).bind fun chain => (reads_list (by decide) reads_redirect).bind fun redirects =>
    (reads_number 2 _).bind fun status => reads_headers.bind fun headers => (reads_option reads_contentType).bind fun contentType =>
    (reads_bytesLimited (by decide)).bind fun body => reads_pure
      (⟨requestedUrl, finalUrl, chain, redirects, UInt16.ofNat status, headers, contentType, body⟩ : FetchResponse Url)).congr
    fun read value => by
    constructor
    · intro h
      obtain ⟨_, r1, _, rfl, h1, _, r2, _, rfl, h2, _, r3, _, rfl, h3, _, r4, _, rfl, h4, status, _, _, rfl, ⟨rfl, hstatus⟩,
        _, r5, _, rfl, h5, _, r6, _, rfl, h6, _, r7, _, rfl, h7, rfl, rfl⟩ := h
      refine ⟨r1, r2, r3, r4, r5, r6, r7, ?_, h1, h2, h3, h4, h5, h6, h7⟩
      rw [status_octets hstatus, List.append_nil]
    · intro h
      obtain ⟨r1, r2, r3, r4, r5, r6, r7, rfl, h1, h2, h3, h4, h5, h6, h7⟩ := h
      refine ⟨_, r1, _, rfl, h1, _, r2, _, rfl, h2, _, r3, _, rfl, h3, _, r4, _, rfl, h4, value.status.toNat, _, _, rfl,
        ⟨rfl, value.status.toNat_lt⟩, _, r5, _, rfl, h5, _, r6, _, rfl, h6, _, r7, [], (List.append_nil _).symm, h7, rfl, ?_⟩
      rw [UInt16.ofNat_toNat]

/-- **The reader.** It accepts the octets of the format, and nothing else. -/
theorem reads_payload : Reads (DiskCachePayload.readFields text) (Format.payload text) :=
  (reads_magic.bind fun _ => reads_duration.bind fun stored => (reads_check (DiskCachePayload.storedTime stored)).bind
    fun storedAt => reads_duration.bind fun freshness => reads_response.bind fun response =>
    reads_pure (⟨response, storedAt, freshness⟩ : DiskCachePayload Url)).congr fun read value => by
    constructor
    · intro h
      obtain ⟨_, _, _, rfl, rfl, stored, r1, _, rfl, h1, storedAt, _, _, rfl, ⟨rfl, hstoredAt⟩, freshness, r2, _, rfl, h2,
        response, r3, _, rfl, h3, rfl, rfl⟩ := h
      exact ⟨stored, r1, r2, r3, by simp, h1, storedTime_ok.1 hstoredAt, h2, h3⟩
    · intro h
      obtain ⟨stored, r1, r2, r3, rfl, h1, hstoredAt, h2, h3⟩ := h
      exact ⟨(), magic, _, rfl, rfl, stored, r1, _, rfl, h1, value.storedAt, [], _, rfl, ⟨rfl, storedTime_ok.2 hstoredAt⟩,
        value.freshness, r2, _, rfl, h2, value.response, r3, [], (List.append_nil _).symm, h3, rfl, rfl⟩

end Reads

/-! ## What the reader costs -/

section Charged

variable {Url : Type} {text : UrlText Url}

theorem charged_len (limit : ℕ) : Charged (Reader.len limit) 4 :=
  (charged_number 4 _).bind fun n => (charged_check _).bind fun _ => charged_pure n

theorem charged_bytesLimited (limit : ℕ) : Charged (Reader.bytesLimited limit) 4 :=
  (charged_len limit).bind fun n => charged_takeCopy n _

theorem charged_string : Charged Reader.string 4 := (charged_bytesLimited _).bind fun _ => charged_check _

theorem charged_url : Charged (Reader.url text) 4 := charged_string.bind fun _ => charged_check _

theorem charged_list {α : Type} {element : Reader.Read α} {spare : ℕ} (helement : Charged element spare) (hspare : 1 ≤ spare)
    (limit : ℕ) : Charged (Reader.list limit element) 4 :=
  (charged_len limit).bind fun n => charged_times (helement.mono hspare) n

theorem charged_header : Charged Reader.header 8 :=
  charged_string.bind fun name => (charged_bytesLimited _).bind fun value => charged_pure (⟨name, value⟩ : Header)

theorem charged_headers : Charged Reader.headers 4 := charged_list charged_header (by decide) _

theorem charged_redirect : Charged (Reader.redirect text) 10 :=
  charged_url.bind fun _ => (charged_number 2 _).bind fun _ => charged_headers.bind fun _ => charged_pure _

theorem charged_option {α : Type} {element : Reader.Read α} {spare : ℕ} (helement : Charged element spare) :
    Charged (Reader.option element) 1 := by
  refine (charged_take 1 _).bind (k := 0) fun tag => ?_
  split_ifs
  · exact charged_pure none
  · exact ((helement.bind fun value => charged_pure (some value)).mono (Nat.zero_le _))
  · exact charged_check _

theorem charged_contentType : Charged Reader.contentType 1 :=
  charged_option (charged_string.bind fun _ => (charged_option charged_string).bind fun _ => charged_pure _)

theorem charged_duration : Charged DiskCachePayload.readDuration 12 :=
  (charged_number 8 _).bind fun _ => (charged_number 4 _).bind fun _ => charged_check _

theorem charged_response : Charged (DiskCachePayload.readResponse text) 27 :=
  charged_url.bind fun _ => charged_url.bind fun _ => (charged_list charged_url (by decide) _).bind fun _ =>
    (charged_list charged_redirect (by decide) _).bind fun _ => (charged_number 2 _).bind fun _ =>
    charged_headers.bind fun _ => charged_contentType.bind fun _ => (charged_bytesLimited _).bind fun _ => charged_pure _

theorem charged_read (text : UrlText Url) : Charged (DiskCachePayload.read text) 59 := by
  have hmagic : Charged DiskCachePayload.readMagic 8 := (charged_take 8 _).bind fun _ => charged_check _
  have hfields : Charged (DiskCachePayload.readFields text) 59 :=
    hmagic.bind fun _ => charged_duration.bind fun _ => (charged_check _).bind fun _ => charged_duration.bind fun _ =>
      charged_response.bind fun _ => charged_pure _
  have hfinish : Charged Reader.finish 0 := Frugal.charged fun _ hin => .refl hin
  exact hfields.bind fun _ => hfinish.bind fun _ => charged_pure _

/-- no run of the reader leaves the octets, or copies more than they are -/
theorem decodeRun_within (octets : Octets) : (DiskCachePayload.decodeRun text octets).2.offset ≤ octets.length ∧
    (DiskCachePayload.decodeRun text octets).2.copied ≤ octets.length := by
  have hin : Cursor.Inside ⟨octets, 0, 0⟩ := Nat.zero_le _
  rw [DiskCachePayload.decodeRun]
  split_ifs
  · exact ⟨Nat.zero_le _, Nat.zero_le _⟩
  · have hfollows := (charged_read text).frugal _ hin
    have hinside := hfollows.inside
    rw [Cursor.Inside, hfollows.octets] at hinside
    have hcopied := hfollows.copied
    simp only at hcopied hinside
    exact ⟨hinside, by omega⟩

end Charged

/-! ## The writer -/

/-- what the writer adds is in the format -/
def Writes {α : Type} (write : Writer → α → Except DiskCachePayloadError Writer) (G : Octets → α → Prop) : Prop :=
  ∀ w a w', write w a = .ok w' → ∃ written, w' = w ++ written ∧ G written a

section Writes

variable {Url : Type} {text : UrlText Url} {w w' : Writer}

theorem bytes_ok {value : Octets} (h : w.bytes value = .ok w') : w' = w ++ value := by
  rw [Writer.bytes, bind_eq_ok] at h
  obtain ⟨_, _, h⟩ := h
  exact (Except.ok.inj h).symm

theorem len_ok {length : ℕ} (h : w.len length = .ok w') : w' = w ++ toLe 4 length := by
  rw [Writer.len, bind_eq_ok] at h
  obtain ⟨_, _, h⟩ := h
  exact (Except.ok.inj h).symm

theorem bytesLimited_ok {value : Octets} {limit : ℕ} (h : w.bytesLimited value limit = .ok w') :
    ∃ written, w' = w ++ written ∧ Format.octets limit written value := by
  rw [Writer.bytesLimited, bind_eq_ok] at h
  obtain ⟨_, hlimit, h⟩ := h
  obtain ⟨v, hlen, hbytes⟩ := bind_eq_ok.1 h
  refine ⟨toLe 4 value.length ++ value, ?_, Nat.not_lt.1 (refuse_eq_ok.1 hlimit), rfl⟩
  rw [bytes_ok hbytes, len_ok hlen, List.append_assoc]

theorem writes_string : Writes Writer.string Format.string := fun _ _ _ h => bytesLimited_ok h

theorem writes_url (hparse : ∀ u, text.parse (text.asStr u) = some u) : Writes (Writer.url text) (Format.url text) := by
  intro w u w' h
  obtain ⟨written, rfl, hwritten⟩ := writes_string _ _ _ h
  exact ⟨written, rfl, text.asStr u, hwritten, hparse u⟩

theorem foldlM_ok {α : Type} {element : Writer → α → Except DiskCachePayloadError Writer} {G : Octets → α → Prop}
    (helement : Writes element G) : ∀ {values : List α} {w w' : Writer}, values.foldlM element w = .ok w' →
    ∃ parts : List Octets, w' = w ++ parts.flatten ∧ List.Forall₂ G parts values := by
  intro values
  induction values with
  | nil =>
    intro w w' h
    obtain rfl := Except.ok.inj h
    exact ⟨[], (List.append_nil _).symm, .nil⟩
  | cons value values ih =>
    intro w w' h
    rw [List.foldlM_cons, bind_eq_ok] at h
    obtain ⟨v, hfirst, hrest⟩ := h
    obtain ⟨written, rfl, hwritten⟩ := helement _ _ _ hfirst
    obtain ⟨parts, rfl, hparts⟩ := ih hrest
    exact ⟨written :: parts, by rw [List.flatten_cons, List.append_assoc], .cons hwritten hparts⟩

theorem writes_list {α : Type} {limit : ℕ} {element : Writer → α → Except DiskCachePayloadError Writer}
    {G : Octets → α → Prop} (helement : Writes element G) :
    Writes (fun w values => w.list limit element values) (Format.list limit G) := by
  intro w values w' h
  simp only [Writer.list, bind_eq_ok] at h
  obtain ⟨_, hlimit, v, hlen, hrest⟩ := h
  obtain ⟨parts, rfl, hparts⟩ := foldlM_ok helement hrest
  refine ⟨toLe 4 values.length ++ parts.flatten, ?_, Nat.not_lt.1 (refuse_eq_ok.1 hlimit), parts, rfl, hparts⟩
  rw [len_ok hlen, List.append_assoc]

theorem writes_header : Writes Writer.header Format.header := by
  intro w value w' h
  simp only [Writer.header, bind_eq_ok] at h
  obtain ⟨v, hname, hvalue⟩ := h
  obtain ⟨name, rfl, hformat⟩ := writes_string _ _ _ hname
  obtain ⟨rest, rfl, hrest⟩ := bytesLimited_ok hvalue
  exact ⟨name ++ rest, List.append_assoc _ _ _, name, rest, rfl, hformat, hrest⟩

theorem writes_headers : Writes Writer.headers Format.headers := writes_list writes_header

theorem writes_redirect (hparse : ∀ u, text.parse (text.asStr u) = some u) :
    Writes (Writer.redirect text) (Format.redirect text) := by
  intro w value w' h
  simp only [Writer.redirect, bind_eq_ok] at h
  obtain ⟨v, hurl, hheaders⟩ := h
  obtain ⟨first, rfl, hfirst⟩ := writes_url hparse _ _ _ hurl
  obtain ⟨rest, rfl, hrest⟩ := writes_headers _ _ _ hheaders
  refine ⟨first ++ (toLe 2 value.status.toNat ++ rest), ?_, first, rest, rfl, hfirst, hrest⟩
  simp [Writer.number]

theorem writes_option {α : Type} {element : Writer → α → Except DiskCachePayloadError Writer} {G : Octets → α → Prop}
    (helement : Writes element G) : Writes (fun w value => w.option element value) (Format.option G) := by
  intro w value w' h
  cases value with
  | none => exact ⟨[0], bytes_ok h, rfl⟩
  | some value =>
    simp only [Writer.option, bind_eq_ok] at h
    obtain ⟨v, htag, hvalue⟩ := h
    obtain ⟨rest, rfl, hrest⟩ := helement _ _ _ hvalue
    exact ⟨[1] ++ rest, by rw [bytes_ok htag, List.append_assoc], rest, rfl, hrest⟩

theorem writes_contentType : Writes Writer.contentType (Format.option Format.contentType) := by
  refine writes_option ?_
  intro w value w' h
  simp only [Writer.contentTypeBody, bind_eq_ok] at h
  obtain ⟨v, hmedia, hcharset⟩ := h
  obtain ⟨first, rfl, hfirst⟩ := writes_string _ _ _ hmedia
  obtain ⟨rest, rfl, hrest⟩ := writes_option writes_string _ _ _ hcharset
  exact ⟨first ++ rest, List.append_assoc _ _ _, first, rest, rfl, hfirst, hrest⟩

theorem writes_response (hparse : ∀ u, text.parse (text.asStr u) = some u) :
    Writes (fun w response => DiskCachePayload.writeResponse text response w) (Format.response text) := by
  intro w value w' h
  simp only [DiskCachePayload.writeResponse, bind_eq_ok] at h
  obtain ⟨v1, h1, v2, h2, v3, h3, v4, h4, v5, h5, v6, h6, h7⟩ := h
  obtain ⟨r1, rfl, f1⟩ := writes_url hparse _ _ _ h1
  obtain ⟨r2, rfl, f2⟩ := writes_url hparse _ _ _ h2
  obtain ⟨r3, rfl, f3⟩ := writes_list (writes_url hparse) _ _ _ h3
  obtain ⟨r4, rfl, f4⟩ := writes_list (writes_redirect hparse) _ _ _ h4
  obtain ⟨r5, rfl, f5⟩ := writes_headers _ _ _ h5
  obtain ⟨r6, rfl, f6⟩ := writes_contentType _ _ _ h6
  obtain ⟨r7, rfl, f7⟩ := bytesLimited_ok h7
  refine ⟨_, ?_, r1, r2, r3, r4, r5, r6, r7, rfl, f1, f2, f3, f4, f5, f6, f7⟩
  simp [Writer.number]

theorem sinceEpoch_ok {t : SystemTime} {stored : ℕ} (h : DiskCachePayload.sinceEpoch t = .ok stored) :
    ∃ d : Duration, d.nanos = stored ∧ epochCheckedAdd d = some t := by
  rw [DiskCachePayload.sinceEpoch, SystemTime.since] at h
  split_ifs at h with hepoch
  obtain rfl := Except.ok.inj h
  have hnat : ((t.nanos - 0).toNat : ℤ) = t.nanos := by
    rw [sub_zero]
    exact Int.toNat_of_nonneg hepoch
  have hclock : (t.nanos - 0).toNat ≤ clockMax := by
    have := t.le
    omega
  refine ⟨⟨(t.nanos - 0).toNat, hclock.trans (by decide)⟩, rfl, ?_⟩
  rw [epochCheckedAdd, dif_pos (by exact_mod_cast hclock)]
  exact congrArg some (SystemTime.ext hnat)

/-- **The writer.** What it writes is in the format, and within the limit on all octets. -/
theorem encode_ok (hparse : ∀ u, text.parse (text.asStr u) = some u) {p : DiskCachePayload Url} {octets : Octets}
    (h : p.encode text = .ok octets) : octets.length ≤ maxPayloadBytes ∧ Format.payload text octets p := by
  simp only [DiskCachePayload.encode, bind_eq_ok] at h
  obtain ⟨stored, hstored, v, hmagic, v', hresponse, hfinish⟩ := h
  obtain ⟨d, rfl, hepoch⟩ := sinceEpoch_ok hstored
  obtain ⟨rest, rfl, hrest⟩ := writes_response hparse _ _ _ hresponse
  rw [Writer.finish] at hfinish
  split_ifs at hfinish with hlength
  obtain rfl := Except.ok.inj hfinish
  refine ⟨hlength, d, toLe 8 d.asSecs ++ toLe 4 d.subsecNanos, toLe 8 p.freshness.asSecs ++ toLe 4 p.freshness.subsecNanos,
    rest, ?_, rfl, hepoch, rfl, hrest⟩
  rw [bytes_ok hmagic]
  simp [Writer.number, Duration.asSecs, Duration.subsecNanos]

end Writes

/-! ## The codec -/

section Codec

variable {Url : Type} {text : UrlText Url}

/-- a complete payload and nothing behind it -/
theorem decode_iff {octets : Octets} {p : DiskCachePayload Url} :
    DiskCachePayload.decode text octets = .ok p ↔ octets.length ≤ maxPayloadBytes ∧ Format.payload text octets p := by
  have hin : Cursor.Inside ⟨octets, 0, 0⟩ := Nat.zero_le _
  have hstart : Cursor.rest ⟨octets, 0, 0⟩ = octets ++ [] := (List.append_nil octets).symm
  rw [DiskCachePayload.decode, DiskCachePayload.decodeRun]
  split_ifs with hlength
  · simp only [false_iff, not_and]
    exact fun hle => absurd hlength (Nat.not_lt.2 hle)
  · have hle := Nat.not_lt.1 hlength
    constructor
    · intro h
      obtain ⟨p', c, hfields, hrest⟩ := bind_ok.1 (Prod.ext h rfl)
      obtain ⟨_, c', hfinish, hpure⟩ := bind_ok.1 hrest
      cases hpure
      obtain ⟨read, hpayload, hread, hbehind⟩ := reads_payload.sound hin hfields
      -- the reader is at the end
      have hend : c.offset = octets.length := by
        rw [Reader.finish, hbehind.octets] at hfinish
        split_ifs at hfinish with heq
        · exact heq
        · cases congrArg Prod.fst hfinish
      have hnone : c.rest = [] := by
        rw [Cursor.rest, hbehind.octets, hend]
        exact List.drop_length
      have hall : octets = read := by
        rw [hnone, List.append_nil] at hread
        exact hread
      exact ⟨hle, by rwa [hall]⟩
    · intro h
      obtain ⟨c, hfields, hbehind⟩ := reads_payload.complete hin h.2 hstart
      have hfinish : Reader.finish c = (.ok (), c) := by
        rw [Reader.finish, hbehind.octets, hbehind.offset, if_pos (Nat.zero_add _)]
      have hrun : DiskCachePayload.read text ⟨octets, 0, 0⟩ = (.ok p, c) :=
        bind_ok.2 ⟨p, c, hfields, bind_ok.2 ⟨(), c, hfinish, rfl⟩⟩
      rw [hrun]

/-- the wall clock shows the deadline no later than the time at which the payload stops being fresh -/
theorem freshUntil_le {p : DiskCachePayload Url} {now deadline : Instant} {wallNow : SystemTime}
    (h : p.freshUntil now wallNow = some deadline) :
    now.nanos ≤ deadline.nanos ∧ deadline.nanos - now.nanos ≤ p.freshness.nanos ∧
      wallNow.nanos + (deadline.nanos - now.nanos : ℕ) ≤ p.storedAt.nanos + p.freshness.nanos := by
  rw [DiskCachePayload.freshUntil] at h
  split_ifs at h with hzero
  simp only at h
  split_ifs at h with hage
  rw [Instant.checkedAdd] at h
  split_ifs at h
  obtain rfl := Option.some.inj h
  have hpassed : wallNow.nanos - p.storedAt.nanos ≤ ((wallNow.since p.storedAt).getD 0 : ℕ) := by
    rw [SystemTime.since]
    split_ifs with hlater
    · exact Int.self_le_toNat _
    · simp only [Option.getD_none, Nat.cast_zero]
      omega
  simp only
  omega

/-- **Payloads.** What is encoded is decoded to the same payload, if the parser reads the text of a URL as the URL; exactly
complete payloads within the limits are decoded; a run of the reader, also one that fails, neither leaves the octets nor
copies more than they are; and the deadline of a payload is not after the one it was stored with. -/
theorem payload_codec (text : UrlText Url) :
    ((∀ u, text.parse (text.asStr u) = some u) → ∀ p octets, DiskCachePayload.encode text p = .ok octets →
      DiskCachePayload.decode text octets = .ok p) ∧
    (∀ octets p, DiskCachePayload.decode text octets = .ok p ↔
      octets.length ≤ maxPayloadBytes ∧ Format.payload text octets p) ∧
    (∀ octets, (DiskCachePayload.decodeRun text octets).2.offset ≤ octets.length ∧
      (DiskCachePayload.decodeRun text octets).2.copied ≤ octets.length) ∧
    ∀ octets p now wallNow deadline, DiskCachePayload.decode text octets = .ok p → p.freshUntil now wallNow = some deadline →
      deadline.nanos - now.nanos ≤ p.freshness.nanos ∧
        wallNow.nanos + (deadline.nanos - now.nanos : ℕ) ≤ p.storedAt.nanos + p.freshness.nanos :=
  ⟨fun hparse _ _ hencode => decode_iff.2 (encode_ok hparse hencode), fun _ _ => decode_iff, decodeRun_within,
    fun _ _ _ _ _ _ hfresh => (freshUntil_le hfresh).2⟩

end Codec

/-- URLs that are their texts -/
def sampleText : UrlText String := ⟨id, some⟩

def samplePayload : DiskCachePayload String where
  response := ⟨"", "", [""], [⟨"", 301, []⟩], 200, [⟨"", [1, 2]⟩], some ⟨"", some ""⟩, [3]⟩
  storedAt := ⟨7, by decide⟩
  freshness := ⟨5, by decide⟩

theorem payload_codec_sample : ∃ octets, samplePayload.encode sampleText = .ok octets ∧
    DiskCachePayload.decode sampleText octets = .ok samplePayload := by
  obtain ⟨octets, hencode⟩ : ∃ octets, samplePayload.encode sampleText = .ok octets := ⟨_, rfl⟩
  exact ⟨octets, hencode, (payload_codec sampleText).1 (fun _ => rfl) _ _ hencode⟩

end Render.Cache
