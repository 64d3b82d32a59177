/-
# A connection to the broker

`handle_broker_connection` and `handle_sasl` of `crates/datarail-kafka/src/serve.rs`:
the frames of one connection are taken one after the other.  A frame has a header;
`SaslHandshake` and `SaslAuthenticate` are answered before anything else; a frame of
any other kind closes the connection while nobody is authenticated, `ApiVersions`
apart; the rest goes to `handle_broker_request`.

What stands behind the requests, the store and the coordinators, is the `world`; what
a request does to it is a parameter, so that `sasl_gate` holds whatever it is.
-/

import Datarail.Kafka.Sasl
import Datarail.Lib.Effect
import Datarail.Lib.Run

namespace Datarail.Kafka

open Lib List

/-- `API_PRODUCE`. -/
def apiProduce : ℤ := 0

/-- `API_METADATA`. -/
def apiMetadata : ℤ := 3

/-- `API_VERSIONS`. -/
def apiVersions : ℤ := 18

/-- The header of a request; the client id is read and not used. -/
structure RequestHeader where
  apiKey : ℤ
  apiVersion : ℤ
  correlationId : ℤ
  deriving DecidableEq

/-- `request_is_flexible`. -/
def requestIsFlexible (apiKey version : ℤ) : Bool :=
  if apiKey = apiVersions then decide (3 ≤ version)
  else if apiKey = apiMetadata ∨ apiKey = apiProduce then decide (9 ≤ version)
  else false

/-- The opening lines of the loop. -/
def requestHeader : Reader RequestHeader := do
  let apiKey ← Reader.int16
  let apiVersion ← Reader.int16
  let correlationId ← Reader.int32
  let _clientId ← Reader.nullableString
  if requestIsFlexible apiKey apiVersion then
    Reader.skipTaggedFields
    return { apiKey, apiVersion, correlationId }
  else return { apiKey, apiVersion, correlationId }

/-- The answers of the SASL stage. -/
inductive SaslReply where
  | handshake (errorCode : ℤ) (mechanisms : List String)
  | authenticate (errorCode : ℤ) (errorMessage : Option String)
  deriving DecidableEq

/-- `SaslOutcome`. -/
inductive SaslOutcome where
  | reply (r : SaslReply)
  | closeAfter (r : SaslReply)
  | pass
  deriving DecidableEq

/-- `handle_sasl`, with the value of `authenticated` it leaves. -/
def handleSasl (h : RequestHeader) (creds : Option SaslCreds) (authenticated : Bool) : Reader (SaslOutcome × Bool) :=
  if h.apiKey = apiSaslHandshake then do
    let mechanism ← parseSaslHandshake
    let code := if mechanism = plain then 0 else unsupportedSaslMechanism
    return (.reply (.handshake code [plain]), authenticated)
  else if h.apiKey = apiSaslAuthenticate then do
    let token ← parseSaslAuthenticate
    let ok :=
      match creds with
      | none => true
      | some c => verifyPlain token c.user c.pass
    if ok then return (.reply (.authenticate 0 none), true)
    else return (.closeAfter (.authenticate saslAuthenticationFailed (some "authentication failed")), authenticated)
  else return (.pass, authenticated)

/-- A frame, and whether an answer to it can be written. -/
structure Frame where
  payload : List UInt8
  writable : Bool

/-- Why a request has no answer. -/
inductive ServeError where
  | read (e : ReadError)
  | unsupportedApiKey (apiKey : ℤ)
  deriving DecidableEq

/-- What became of a frame; `ρ` are the responses. -/
inductive Note (ρ : Type) where
  /-- The connection was over. -/
  | unread
  /-- The header or the SASL body is malformed: the connection is over. -/
  | malformed (e : ReadError)
  /-- Answered by the SASL stage. -/
  | sasl (h : RequestHeader) (r : SaslReply)
  /-- Answered by the SASL stage, which closes the connection. -/
  | rejected (h : RequestHeader) (r : SaslReply)
  /-- The connection is closed without an answer. -/
  | refused (h : RequestHeader)
  /-- The request was handled; no response is written if it is suppressed. -/
  | handled (h : RequestHeader) (response : Option ρ)
  /-- The request was handled and the handler stopped. -/
  | stopped (h : RequestHeader) (why : Stop ServeError)

/-- A connection and what it works on. -/
structure Conn (σ : Type) where
  authenticated : Bool
  isOpen : Bool
  world : σ

/-- What the broker answers with. -/
structure Api (σ ρ : Type) where
  /-- `api_versions_response`. -/
  versions : RequestHeader → ρ
  /-- The other arms of `handle_broker_request`: the response, and whether it is suppressed. -/
  other : RequestHeader → Cursor UInt8 → Action ServeError σ (ρ × Bool)

section Loop

variable {σ ρ : Type} (api : Api σ ρ) (creds : Option SaslCreds)

/-- `handle_broker_request`. -/
def Api.handle (h : RequestHeader) (c : Cursor UInt8) : Action ServeError σ (ρ × Bool) :=
  if h.apiKey = apiVersions then pure (api.versions h, false) else api.other h c

/-- A connection that was accepted. -/
def Conn.accepted (world : σ) : Conn σ := { authenticated := creds.isNone, isOpen := true, world }

/-- A request that the SASL stage lets pass. -/
def Conn.request (conn : Conn σ) (writable : Bool) (h : RequestHeader) (c : Cursor UInt8) : Conn σ × Note ρ :=
  if conn.authenticated = false ∧ h.apiKey ≠ apiVersions then ({ conn with isOpen := false }, .refused h)
  else
    match (api.handle h c).run conn.world with
    | (.ok (response, suppress), world) =>
      ({ conn with world, isOpen := suppress || writable }, .handled h (if suppress then none else some response))
    | (.stop why, world) => ({ conn with world, isOpen := false }, .stopped h why)

/-- The loop body of `handle_broker_connection`. -/
def Conn.step (conn : Conn σ) (frame : Frame) : Conn σ × Note ρ :=
  if conn.isOpen = false then (conn, .unread)
  else
    match requestHeader.run (.new frame.payload) with
    | .error e => ({ conn with isOpen := false }, .malformed e)
    | .ok (h, c) =>
      match (handleSasl h creds conn.authenticated).run c with
      | .error e => ({ conn with isOpen := false }, .malformed e)
      | .ok ((.reply r, authenticated), _) =>
        ({ conn with authenticated, isOpen := frame.writable }, .sasl h r)
      | .ok ((.closeAfter r, authenticated), _) => ({ conn with authenticated, isOpen := false }, .rejected h r)
      | .ok ((.pass, authenticated), c) => { conn with authenticated }.request api frame.writable h c

/-- The frames of a connection, one after the other. -/
def connection : Machine (Conn σ) Frame (Note ρ) where
  step := Conn.step api creds

end Loop

/-- The frame is a `SaslAuthenticate` with this token. -/
def Presents (frame : Frame) (token : List UInt8) : Prop :=
  ∃ h c d, requestHeader.run (.new frame.payload) = .ok (h, c) ∧ h.apiKey = apiSaslAuthenticate ∧
    parseSaslAuthenticate.run c = .ok (token, d)

/-- The store or a coordinator was at work for the frame. -/
def Note.Operates {ρ : Type} : Note ρ → Prop
  | .handled h _ => h.apiKey ≠ apiVersions
  | .stopped h _ => h.apiKey ≠ apiVersions
  | _ => False

/-- The kind of a frame that got an answer. -/
def Note.answeredKey {ρ : Type} : Note ρ → Option ℤ
  | .sasl h _ => some h.apiKey
  | .rejected h _ => some h.apiKey
  | .handled h (some _) => some h.apiKey
  | _ => none

section Gate

variable {σ ρ : Type} {api : Api σ ρ} {creds : SaslCreds} {conn : Conn σ} {frame : Frame}

/-- **The SASL stage.**  The two SASL requests never pass, and it is a token that verifies which
authenticates. -/
theorem handleSasl_cases {h : RequestHeader} {authenticated : Bool} {c d : Cursor UInt8} {o : SaslOutcome} {b : Bool}
    (hrun : (handleSasl h (some creds) authenticated).run c = .ok ((o, b), d)) :
    (∃ r, o = .reply r ∧ h.apiKey = apiSaslHandshake ∧ b = authenticated) ∨
    (∃ token d', h.apiKey = apiSaslAuthenticate ∧ parseSaslAuthenticate.run c = .ok (token, d') ∧
      (verifyPlain token creds.user creds.pass = true ∧ (∃ r, o = .reply r) ∧ b = true ∨
        verifyPlain token creds.user creds.pass = false ∧ (∃ r, o = .closeAfter r) ∧ b = authenticated)) ∨
    (o = .pass ∧ h.apiKey ≠ apiSaslHandshake ∧ h.apiKey ≠ apiSaslAuthenticate ∧ b = authenticated) := by
  unfold handleSasl at hrun
  by_cases hhand : h.apiKey = apiSaslHandshake
  · rw [if_pos hhand] at hrun
    obtain ⟨mechanism, _, -, hrun⟩ := Scan.bind_eq_ok hrun
    cases hrun
    exact .inl ⟨_, rfl, hhand, rfl⟩
  · rw [if_neg hhand] at hrun
    by_cases hauth : h.apiKey = apiSaslAuthenticate
    · rw [if_pos hauth] at hrun
      obtain ⟨token, d', htoken, hrun⟩ := Scan.bind_eq_ok hrun
      refine .inr (.inl ⟨token, d', hauth, htoken, ?_⟩)
      cases hverify : verifyPlain token creds.user creds.pass with
      | true =>
        simp only [hverify, if_true] at hrun
        cases hrun
        exact .inl ⟨rfl, ⟨_, rfl⟩, rfl⟩
      | false =>
        simp only [hverify, Bool.false_eq_true, if_false] at hrun
        cases hrun
        exact .inr ⟨rfl, ⟨_, rfl⟩, rfl⟩
    · rw [if_neg hauth] at hrun
      cases hrun
      exact .inr (.inr ⟨rfl, hhand, hauth, rfl⟩)

/-- A request while nobody is authenticated: it is `ApiVersions`, or the connection is closed. -/
theorem request_unauthenticated (hauth : conn.authenticated = false) (writable : Bool) (h : RequestHeader)
    (c : Cursor UInt8) :
    (conn.request api writable h c).1.world = conn.world ∧ ¬ (conn.request api writable h c).2.Operates ∧
      (conn.request api writable h c).1.authenticated = false ∧
      ∀ key, (conn.request api writable h c).2.answeredKey = some key → key = apiVersions := by
  unfold Conn.request
  by_cases hkey : h.apiKey = apiVersions
  · rw [if_neg (fun hc => hc.2 hkey), Api.handle, if_pos hkey]
    refine ⟨rfl, fun hop => hop hkey, hauth, fun key hans => ?_⟩
    cases hans
    exact hkey
  · rw [if_pos ⟨hauth, hkey⟩]
    exact ⟨rfl, id, hauth, nofun⟩

variable (api frame) in
/-- **A frame while nobody is authenticated**: no operation, an answer only to the three kinds, and it is
a credential that authenticates. -/
theorem step_unauthenticated (huser : 0 ∉ utf8Bytes creds.user) (hauth : conn.authenticated = false) :
    (conn.step api (some creds) frame).1.world = conn.world ∧ ¬ (conn.step api (some creds) frame).2.Operates ∧
      ((conn.step api (some creds) frame).1.authenticated = true →
        ∃ token, Presents frame token ∧ Credential creds token) ∧
      ∀ key, (conn.step api (some creds) frame).2.answeredKey = some key →
        key = apiVersions ∨ key = apiSaslHandshake ∨ key = apiSaslAuthenticate := by
  have hnone : conn.authenticated = true → ∃ token, Presents frame token ∧ Credential creds token := by
    rw [hauth]
    nofun
  unfold Conn.step
  by_cases hopen : conn.isOpen = false
  · rw [if_pos hopen]
    exact ⟨rfl, id, hnone, nofun⟩
  rw [if_neg hopen]
  rcases hheader : requestHeader.run (.new frame.payload) with e | ⟨h, c⟩
  · exact ⟨rfl, id, hnone, nofun⟩
  · dsimp only
    rcases hsasl : (handleSasl h (some creds) conn.authenticated).run c with e | ⟨⟨o, b⟩, d⟩
    · exact ⟨rfl, id, hnone, nofun⟩
    · rcases handleSasl_cases hsasl with ⟨r, rfl, hkey, rfl⟩ |
        ⟨token, d', hkey, htoken, ⟨hverify, ⟨r, rfl⟩, rfl⟩ | ⟨-, ⟨r, rfl⟩, rfl⟩⟩ | ⟨rfl, -, -, rfl⟩
      · refine ⟨rfl, id, hnone, fun key hans => ?_⟩
        cases hans
        exact .inr (.inl hkey)
      · refine ⟨rfl, id, fun _ => ⟨token, ⟨h, c, d', hheader, hkey, htoken⟩, ?_⟩, fun key hans => ?_⟩
        · exact (verifyPlain_iff huser token).1 hverify
        · cases hans
          exact .inr (.inr hkey)
      · refine ⟨rfl, id, hnone, fun key hans => ?_⟩
        cases hans
        exact .inr (.inr hkey)
      · obtain ⟨hworld, hop, hstill, hans⟩ := @request_unauthenticated σ ρ api
          { conn with authenticated := conn.authenticated } hauth frame.writable h d
        exact ⟨hworld, hop, fun h => Bool.noConfusion (hstill.symm.trans h), fun key hkey => .inl (hans key hkey)⟩

/-- A token that is no credential closes the connection. -/
theorem step_rejects (huser : 0 ∉ utf8Bytes creds.user) {token : List UInt8} (htoken : Presents frame token)
    (hno : ¬ Credential creds token) : (conn.step api (some creds) frame).1.isOpen = false := by
  obtain ⟨h, c, d, hheader, hkey, hparse⟩ := htoken
  unfold Conn.step
  by_cases hopen : conn.isOpen = false
  · rw [if_pos hopen]
    exact hopen
  rw [if_neg hopen, hheader]
  dsimp only
  rcases hsasl : (handleSasl h (some creds) conn.authenticated).run c with e | ⟨⟨o, b⟩, d'⟩
  · rfl
  · rcases handleSasl_cases hsasl with ⟨r, -, hkey', -⟩ |
      ⟨token', d'', -, htoken', ⟨hverify, -, -⟩ | ⟨-, ⟨r, rfl⟩, -⟩⟩ | ⟨-, -, hkey', -⟩
    · rw [hkey] at hkey'
      exact absurd hkey' (by decide)
    · rw [hparse] at htoken'
      cases htoken'
      exact absurd ((verifyPlain_iff huser token).1 hverify) hno
    · rfl
    · exact absurd hkey hkey'

/-- A connection that is over stays so and reads nothing. -/
theorem final_closed (api : Api σ ρ) (creds : Option SaslCreds) {conn : Conn σ} (h : conn.isOpen = false)
    (frames : List Frame) : ((connection api creds).final conn frames).isOpen = false := by
  induction frames generalizing conn with
  | nil => exact h
  | cons frame frames ih =>
    refine ih ?_
    change (conn.step api creds frame).1.isOpen = false
    rw [Conn.step, if_pos h]
    exact h

/-- Who is authenticated has presented a credential. -/
theorem authenticated_of_credential (huser : 0 ∉ utf8Bytes creds.user) (world : σ) (frames : List Frame)
    (h : ((connection api (some creds)).final (.accepted (some creds) world) frames).authenticated = true) :
    ∃ (j : ℕ) (frame : Frame) (token : List UInt8),
      frames[j]? = some frame ∧ Presents frame token ∧ Credential creds token := by
  have hrun := (connection api (some creds)).invariant_of_step (fun _ _ => True)
    (fun history conn => conn.authenticated = true → ∃ (j : ℕ) (frame : Frame) (token : List UInt8),
        (history.map Prod.fst)[j]? = some frame ∧ Presents frame token ∧ Credential creds token)
    (fun history conn frame _ hinv hauth => ?_) (.accepted (some creds) world) frames []
    (Machine.guarded_true _ _ _) (by simp [Conn.accepted])
  · obtain ⟨j, frame, token, hframe, htoken⟩ := hrun h
    rw [nil_append, Machine.map_fst_trace] at hframe
    exact ⟨j, frame, token, hframe, htoken⟩
  · rw [map_append]
    cases hbefore : conn.authenticated with
    | true =>
      obtain ⟨j, frame', token, hframe, htoken⟩ := hinv hbefore
      refine ⟨j, frame', token, ?_, htoken⟩
      rw [getElem?_append_left (List.getElem?_eq_some_iff.1 hframe).1]
      exact hframe
    | false =>
      obtain ⟨token, htoken⟩ := (step_unauthenticated _ frame huser hbefore).2.2.1 hauth
      refine ⟨history.length, frame, token, ?_, htoken⟩
      rw [getElem?_append_right (by rw [length_map]), length_map, Nat.sub_self]
      rfl

/-- **The SASL gate.**  On a broker with a user and a password, the user without a NUL byte, whatever the
requests do, for every sequence of frames of a connection:
the world is changed by a frame, or an operation is made for it, only if an earlier frame was a
`SaslAuthenticate` with a credential; before that, only `ApiVersions` and the two SASL requests are answered;
and after a token that is no credential no frame is read. -/
theorem sasl_gate (api : Api σ ρ) (creds : SaslCreds) (huser : 0 ∉ utf8Bytes creds.user) (world : σ)
    (frames : List Frame) :
    let before (k : ℕ) := (connection api (some creds)).final (.accepted (some creds) world) (frames.take k)
    let Authenticated (k : ℕ) := ∃ (j : ℕ) (frame : Frame) (token : List UInt8),
      j < k ∧ frames[j]? = some frame ∧ Presents frame token ∧ Credential creds token
    (∀ (k : ℕ) (frame : Frame), frames[k]? = some frame →
      (((connection api (some creds)).step (before k) frame).1.world ≠ (before k).world ∨
        ((connection api (some creds)).step (before k) frame).2.Operates → Authenticated k) ∧
      (¬ Authenticated k → ∀ key, ((connection api (some creds)).step (before k) frame).2.answeredKey = some key →
        key = apiVersions ∨ key = apiSaslHandshake ∨ key = apiSaslAuthenticate)) ∧
    (∀ (j : ℕ) (frame : Frame) (token : List UInt8), frames[j]? = some frame → Presents frame token →
      ¬ Credential creds token → ∀ (k : ℕ) (later : Frame), j < k → frames[k]? = some later →
        ((connection api (some creds)).step (before k) later).2 = .unread) := by
  intro before Authenticated
  have hauthenticated : ∀ k, (before k).authenticated = true → Authenticated k := by
    intro k hauth
    obtain ⟨j, frame, token, hframe, htoken⟩ := authenticated_of_credential huser world (frames.take k) hauth
    have hj := (List.getElem?_eq_some_iff.1 hframe).1
    rw [length_take] at hj
    rw [getElem?_take_of_lt (by omega)] at hframe
    exact ⟨j, frame, token, by omega, hframe, htoken⟩
  refine ⟨fun k frame hframe => ?_, ?_⟩
  · cases hauth : (before k).authenticated with
    | true => exact ⟨fun _ => hauthenticated k hauth, fun hno => absurd (hauthenticated k hauth) hno⟩
    | false =>
      obtain ⟨hworld, hop, -, hans⟩ := step_unauthenticated api frame huser hauth
      exact ⟨fun h => (h.elim (fun hne => hne hworld) hop).elim, fun _ => hans⟩
  · intro j frame token hframe htoken hno k later hjk hlater
    have hclosed : (before (j + 1)).isOpen = false := by
      change ((connection api (some creds)).final _ (frames.take (j + 1))).isOpen = false
      rw [Machine.final_take_succ _ hframe]
      exact step_rejects huser htoken hno
    have hsplit : frames.take k = frames.take (j + 1) ++ (frames.take k).drop (j + 1) := by
      have h := take_append_drop (j + 1) (frames.take k)
      rw [take_take, min_eq_left (by omega)] at h
      exact h.symm
    have hrest : (before k).isOpen = false := by
      change ((connection api (some creds)).final _ (frames.take k)).isOpen = false
      rw [hsplit, Machine.final_append]
      exact final_closed api (some creds) hclosed _
    change (Conn.step api (some creds) (before k) later).2 = .unread
    rw [Conn.step, if_pos hrest]

end Gate

/-- An authentication of `u` with `p`, and a `Metadata` request. -/
def session : List Frame :=
  [⟨[0, 36, 0, 0, 0, 0, 0, 1, 255, 255, 0, 0, 0, 4, 0, 117, 0, 112], true⟩, ⟨[0, 3, 0, 0, 0, 0, 0, 2, 255, 255], true⟩]

/-- A broker that counts its requests. -/
def counting : Api ℕ Unit where
  versions _ := ()
  other _ _ := do
    Action.modify (· + 1)
    return ((), false)

/-- The hypothesis is satisfiable: the second frame is counted, and the first has authenticated. -/
theorem sasl_gate_session :
    ((connection counting (some ⟨"u", "p"⟩)).final (.accepted (some ⟨"u", "p"⟩) 0) session).world = 1 ∧
    ∃ (j : ℕ) (frame : Frame) (token : List UInt8),
      j < 1 ∧ session[j]? = some frame ∧ Presents frame token ∧ Credential ⟨"u", "p"⟩ token :=
  ⟨by decide +kernel, ((sasl_gate counting ⟨"u", "p"⟩ (by decide +kernel) 0 session).1 1 _ rfl).1
    (.inl (by decide +kernel))⟩

end Datarail.Kafka
