import DependencyMap.Proofs.Json.Nesting
import DependencyMap.Proofs.Wire

/-!
# Answers to analysis calls

`Carries` says of a body that it is the JSON of a request. A body is answered with the analysis of
its request, and refused if it has none (`analyzeBody_eq_ok_iff`); the headers of the call make no
difference (`respond_post_analyze`). To three kinds of body the service has no response, and the
server says that there was an error: those with an integer of more than 4300 digits, those in which
arrays and objects are nested too deep, and those whose analysis has a surrogate
(`respond_analyze`). Opening brackets alone are enough (`respond_replicate`), and so is a path in
the request (`surrogateBody_is_answered_500`).
-/

namespace DependencyMap

open Json

/-! ### Texts of an analysis in its wire form -/

theorem holds_text_array {texts : List Text} {t : Text} (h : t ∈ texts) :
    (Value.array (texts.map .text)).Holds t :=
  .item (List.mem_map.mpr ⟨t, h, rfl⟩) .text

theorem Link.holds_toJson {l : Link} {t : Text} (h : t ∈ l.texts) : l.toJson.Holds t := by
  rw [toJson]
  rcases List.mem_cons.mp h with rfl | h
  · exact .member (.head _) .text
  · exact .member (.tail _ (.tail _ (.head _))) (holds_text_array h)

theorem Node.holds_toJson {n : Node} {t : Text} (h : t ∈ n.texts) : n.toJson.Holds t := by
  rw [toJson]
  rw [texts, List.mem_cons, List.mem_append, List.mem_flatMap] at h
  rcases h with rfl | hExport | ⟨l, hl, hText⟩
  · exact .member (.head _) .text
  · exact .member (.tail _ (.tail _ (.tail _ (.tail _ (.tail _ (.head _))))))
      (holds_text_array hExport)
  · exact .member (.tail _ (.tail _ (.tail _ (.tail _ (.head _)))))
      (.item (List.mem_map.mpr ⟨l, hl, rfl⟩) (Link.holds_toJson hText))

theorem Analysis.holds_toJson {a : Analysis} {t : Text} (h : t ∈ a.texts) : a.toJson.Holds t := by
  rw [toJson]
  obtain ⟨n, hn, hText⟩ := List.mem_flatMap.mp h
  have hNode := Node.holds_toJson hText
  rw [nodes, List.mem_cons, List.mem_append, List.mem_map] at hn
  rcases hn with rfl | hDependency | ⟨f, hDependent, rfl⟩
  · exact .member (.head _) hNode
  · exact .member (.tail _ (.head _)) (.item (List.mem_map.mpr ⟨n, hDependency, rfl⟩) hNode)
  · exact .member (.tail _ (.tail _ (.head _)))
      (.item (List.mem_map.mpr ⟨f, hDependent, rfl⟩) hNode)

/-- The wire form is written without surrogates just when the analysis has none. -/
theorem Analysis.isScalar_toCompact_iff {a : Analysis} :
    a.toJson.toCompact.IsScalar ↔ ∀ t ∈ a.texts, t.IsScalar :=
  ⟨fun h _ ht => (holds_toJson ht).isScalar h, fun h => (plain_toJson_unlimited h).isScalar_write⟩

theorem path_mem_texts_analyze (r : Request) : r.path ∈ r.analyze.texts :=
  List.mem_flatMap.mpr ⟨.file r.analyze.source, List.mem_cons_self, List.mem_cons_self⟩

namespace Http

/-- The bytes are JSON for the request. -/
def Carries (body : Bytes) (request : Request) : Prop :=
  ∃ v, decode none body = .ok v ∧ Request.ofJson v = .ok request

theorem Carries.unique {body : Bytes} {r r' : Request} (h : Carries body r)
    (h' : Carries body r') : r = r' := by
  obtain ⟨v, hDecode, hRead⟩ := h
  obtain ⟨v', hDecode', hRead'⟩ := h'
  obtain rfl : v = v' := Except.ok.inj (hDecode.symm.trans hDecode')
  exact Except.ok.inj (hRead.symm.trans hRead')

def HasLongInteger (body : Bytes) : Prop :=
  ∃ digits, decode none body = .error (.unread (.longInteger digits))

def IsTooDeep (room : Option Nat) (body : Bytes) : Prop :=
  decode room body = .error (.unread .tooDeep)

def answerHeaders : Headers :=
  analysisHeaders ++ [(contentType, Text.ofString "application/json")]

def refusal : Response :=
  ⟨400, answerHeaders, Utf8.encodeLoosely "\x7b\"error\":\"Invalid request body\"\x7d"⟩

theorem jsonResponse_invalidBody : jsonResponse 400 analysisHeaders invalidBody = .ok refusal := by
  have hText : invalidBody.toCompact = "\x7b\"error\":\"Invalid request body\"\x7d" := by
    decide +kernel
  refine jsonResponse_eq_ok_iff.mpr ⟨?_, ?_⟩
  · rw [hText]
    decide +kernel
  · rw [hText]
    rfl

variable {room : Option Nat} {body : Bytes} {r : Response}

theorem analyzeBody_of_carries {request : Request} (hRoom : ¬ IsTooDeep room body)
    (h : Carries body request) : analyzeBody room body = analysisResponse request.analyze := by
  obtain ⟨v, hDecode, hRead⟩ := h
  rw [decode_eq_of_ne_tooDeep hRoom] at hDecode
  simp only [analyzeBody, hDecode, hRead]

theorem analyzeBody_of_hasLongInteger (hRoom : ¬ IsTooDeep room body) {digits : Nat}
    (h : decode none body = .error (.unread (.longInteger digits))) :
    analyzeBody room body = .error (.longInteger digits) := by
  rw [decode_eq_of_ne_tooDeep hRoom] at h
  simp only [analyzeBody, h]

theorem analyzeBody_of_isTooDeep (h : IsTooDeep room body) :
    analyzeBody room body = .error .tooDeep := by
  rw [IsTooDeep] at h
  simp only [analyzeBody, h]

theorem analyzeBody_of_not_carries (hRoom : ¬ IsTooDeep room body)
    (hNone : ∀ request, ¬ Carries body request) (hShort : ¬ HasLongInteger body) :
    analyzeBody room body = .ok refusal := by
  simp only [Carries, HasLongInteger, decode_eq_of_ne_tooDeep hRoom] at hNone hShort
  rw [← jsonResponse_invalidBody]
  cases hDecode : decode room body with
  | error fault =>
    cases fault with
    | undecodable => simp only [analyzeBody, hDecode]
    | unread fault =>
      cases fault with
      | malformed => simp only [analyzeBody, hDecode]
      | longInteger digits => exact absurd ⟨digits, hDecode⟩ hShort
      | tooDeep => exact absurd hDecode hRoom
  | ok v =>
    cases hRead : Request.ofJson v with
    | error fault => simp only [analyzeBody, hDecode, hRead]
    | ok request => exact absurd ⟨v, hDecode, hRead⟩ (hNone request)

def answer (a : Analysis) : Response :=
  ⟨200, answerHeaders, Utf8.encodeLoosely a.toJson.toCompact⟩

theorem analysisResponse_eq_ok_iff {a : Analysis} :
    analysisResponse a = .ok r ↔ (∀ t ∈ a.texts, t.IsScalar) ∧ r = answer a := by
  rw [analysisResponse, jsonResponse_eq_ok_iff, Analysis.isScalar_toCompact_iff]
  rfl

/-- The body of a request is answered with the analysis, if that can be written, and everything else
is refused but for integers that are too long and what is nested too deep. -/
theorem analyzeBody_eq_ok_iff : analyzeBody room body = .ok r ↔ ¬ IsTooDeep room body ∧
    ((∃ request, Carries body request ∧ (∀ t ∈ request.analyze.texts, t.IsScalar) ∧
        r = answer request.analyze) ∨
      ((∀ request, ¬ Carries body request) ∧ ¬ HasLongInteger body ∧ r = refusal)) := by
  by_cases hRoom : IsTooDeep room body
  · simp [analyzeBody_of_isTooDeep hRoom, hRoom]
  rw [and_iff_right hRoom]
  by_cases hCarries : ∃ request, Carries body request
  · obtain ⟨request, hRequest⟩ := hCarries
    rw [analyzeBody_of_carries hRoom hRequest, analysisResponse_eq_ok_iff]
    constructor
    · exact fun h => Or.inl ⟨request, hRequest, h⟩
    · rintro (⟨other, hOther, h⟩ | ⟨hNone, -⟩)
      · exact hOther.unique hRequest ▸ h
      · exact absurd hRequest (hNone request)
  · have hNone : ∀ request, ¬ Carries body request := not_exists.mp hCarries
    by_cases hLong : HasLongInteger body
    · obtain ⟨digits, hDigits⟩ := id hLong
      rw [analyzeBody_of_hasLongInteger hRoom hDigits]
      simp [hNone, hLong]
    · rw [analyzeBody_of_not_carries hRoom hNone hLong]
      simp [hNone, hLong, eq_comm]

theorem shared_of_headers (h : r.headers = answerHeaders) : shared r = r := by
  have hSame : Members.set allowOrigin (Text.ofString "*") answerHeaders = answerHeaders := by
    decide +kernel
  rw [shared, h, hSame, ← h]

/-- A call to analyze a body is answered like the body alone, whatever its headers; and if there is
no response to that, by the server. -/
theorem respond_post_analyze (room : Option Nat) (headers : Headers) (body : Bytes) :
    respond room ⟨"POST", "/api/bridge/analyze", headers, body⟩ =
      match analyzeBody room body with
      | .ok r => ⟨r, none⟩
      | .error fault => ⟨serverError, some fault⟩ := by
  have hNot : Text.ofString "POST" ≠ Text.ofString "OPTIONS" := by decide
  have hPreflight : preflight? ⟨"POST", "/api/bridge/analyze", headers, body⟩ = none := by
    rw [preflight?, if_neg fun h => hNot h.1]
  have hFind : Endpoint.find? "/api/bridge/analyze" = some .analyze := by decide +kernel
  have hMethod : (Endpoint.methods .analyze).contains "POST" = true := by decide
  have hRoute : route room ⟨"POST", "/api/bridge/analyze", headers, body⟩ =
      analyzeBody room body := by
    simp only [route, hFind, hMethod, if_true, Endpoint.respond, if_neg hNot]
  rw [respond, hPreflight]
  simp only [hRoute]
  cases hBody : analyzeBody room body with
  | error fault => rfl
  | ok r =>
    have hHeaders : r.headers = answerHeaders := by
      rcases (analyzeBody_eq_ok_iff.mp hBody).2 with ⟨request, -, -, rfl⟩ | ⟨-, -, rfl⟩ <;> rfl
    simp only [shared_of_headers hHeaders, ite_self]

/-- Where more arrays are opened than may stand in one another, the server answers. -/
theorem respond_replicate {n most : Nat} (h : most < n) (hTwo : 2 ≤ n) (headers : Headers)
    (t : Text) : respond (some most) ⟨"POST", "/api/bridge/analyze", headers,
      Utf8.encodeLoosely (List.replicate n (CodePoint.ofChar '[') ++ t)⟩ =
        ⟨serverError, some .tooDeep⟩ := by
  obtain ⟨n, rfl⟩ : ∃ less, n = less + 2 := ⟨n - 2, by omega⟩
  have hStart : List.replicate (n + 2) (CodePoint.ofChar '[') ++ t = CodePoint.ofChar '[' ::
      CodePoint.ofChar '[' :: (List.replicate n (CodePoint.ofChar '[') ++ t) := rfl
  have hRead : readWithin ⟨some Numeral.maxDigits, some most⟩
      (List.replicate (n + 2) (CodePoint.ofChar '[') ++ t) = .error .tooDeep := by
    rw [readWithin, hStart, skipSpace_cons (by decide), ← hStart, readValue_replicate h]
    simp
    omega
  have hDeep : IsTooDeep (some most)
      (Utf8.encodeLoosely (List.replicate (n + 2) (CodePoint.ofChar '[') ++ t)) := by
    rw [hStart] at hRead ⊢
    exact decodeWithin_encodeLoosely (by decide) (by decide) hRead
  rw [respond_post_analyze, analyzeBody_of_isTooDeep hDeep]

/-- Among the headers just one has the name, and it has the value. -/
def Headers.Once (headers : Headers) (name value : Text) : Prop :=
  headers.filter (fun h => h.1 = name) = [(name, value)]

/-- The service can answer to the body: nothing in it is nested too deep, no integer is too long,
and the result has no surrogate. -/
structure IsAnswerable (room : Option Nat) (body : Bytes) : Prop where
  notTooDeep : ¬ IsTooDeep room body
  noLongInteger : ¬ HasLongInteger body
  isScalar : ∀ request, Carries body request → ∀ t ∈ request.analyze.texts, t.IsScalar

theorem isAnswerable_iff : IsAnswerable room body ↔ ∃ r, analyzeBody room body = .ok r := by
  simp only [analyzeBody_eq_ok_iff]
  constructor
  · rintro ⟨hRoom, hShort, hTexts⟩
    by_cases hCarries : ∃ request, Carries body request
    · obtain ⟨request, hRequest⟩ := hCarries
      exact ⟨_, hRoom, Or.inl ⟨request, hRequest, hTexts request hRequest, rfl⟩⟩
    · exact ⟨_, hRoom, Or.inr ⟨not_exists.mp hCarries, hShort, rfl⟩⟩
  · rintro ⟨r, hRoom, ⟨request, hCarries, hTexts, -⟩ | ⟨hNone, hShort, -⟩⟩
    · refine ⟨hRoom, ?_, fun other hOther => hCarries.unique hOther ▸ hTexts⟩
      rintro ⟨digits, hLong⟩
      obtain ⟨v, hDecode, -⟩ := hCarries
      simp [hDecode] at hLong
    · exact ⟨hRoom, hShort, fun request hCarries => absurd hCarries (hNone request)⟩

/-- The service can answer to an empty body. -/
example : IsAnswerable room [] := by
  have hDecode (room : Option Nat) : decode room [] = .error (.unread .malformed) := rfl
  refine ⟨by simp [IsTooDeep, hDecode], by simp [HasLongInteger, hDecode], ?_⟩
  rintro request ⟨v, hRead, -⟩
  simp [hDecode] at hRead

/-- Where the service can answer to a body, the response is the analysis of the request in the body,
or a refusal if there is none; and it says once that every origin may see it. Otherwise the server
answers that there was an error. -/
theorem respond_analyze (room : Option Nat) (headers : Headers) (body : Bytes) :
    ∃ r, (respond room ⟨"POST", "/api/bridge/analyze", headers, body⟩).response = r ∧
      (IsAnswerable room body →
        ((r.status = 200 ∧ ∃ request, Carries body request ∧
            decodeWithin .unlimited r.body = .ok request.analyze.toJson) ∨
          (r.status = 400 ∧ (∀ request, ¬ Carries body request) ∧
            r.body = Utf8.encodeLoosely "\x7b\"error\":\"Invalid request body\"\x7d")) ∧
        r.headers.Once "access-control-allow-origin" "*" ∧
        r.headers.Once "access-control-allow-methods" "POST, OPTIONS" ∧
        r.headers.Once "access-control-allow-headers" "Content-Type") ∧
      (¬ IsAnswerable room body → r = serverError) := by
  have hOnce : answerHeaders.Once "access-control-allow-origin" "*" ∧
      answerHeaders.Once "access-control-allow-methods" "POST, OPTIONS" ∧
      answerHeaders.Once "access-control-allow-headers" "Content-Type" := by
    simp only [Headers.Once]
    decide +kernel
  rw [respond_post_analyze, isAnswerable_iff]
  cases hBody : analyzeBody room body with
  | error fault => exact ⟨serverError, rfl, by simp, fun _ => rfl⟩
  | ok r =>
    refine ⟨r, rfl, fun _ => ?_, fun hNot => absurd ⟨r, rfl⟩ hNot⟩
    rcases (analyzeBody_eq_ok_iff.mp hBody).2 with ⟨request, hCarries, hTexts, rfl⟩ |
      ⟨hNone, -, rfl⟩
    · exact ⟨Or.inl ⟨rfl, request, hCarries,
        Analysis.decodeWithin_toCompact (Analysis.plain_toJson_unlimited hTexts)⟩, hOnce⟩
    · exact ⟨Or.inr ⟨rfl, hNone, rfl⟩, hOnce⟩

def surrogateBody : Bytes := Utf8.encodeLoosely "\x7b\"filePath\":\"\\ud800\"\x7d"

/-- A request for a path with a surrogate is read, and the server answers that there was an
error. -/
theorem surrogateBody_is_answered_500 :
    (∃ request, Carries surrogateBody request) ∧
      ∀ room, (respond room ⟨"POST", "/api/bridge/analyze", [], surrogateBody⟩).response.status =
        500 := by
  let surrogate : CodePoint := ⟨0xD800, by decide⟩
  have hBody : surrogateBody = Utf8.encodeLoosely (CodePoint.ofChar '\x7b' ::
      CodePoint.ofChar '"' :: "filePath\":\"\\ud800\"\x7d") := by
    decide +kernel
  have hPath : readString false [] "\\ud800\"\x7d" =
      some ([surrogate], [CodePoint.ofChar '\x7d']) := by
    decide +kernel
  have hDecode : decode none surrogateBody = .ok (.object [("filePath", .text [surrogate])]) := by
    rw [hBody]
    exact decodeWithin_encodeLoosely (by decide) (by decide)
      (readWithin_object_text rfl (by decide +kernel) hPath)
  have hCarries : Carries surrogateBody ⟨[surrogate], [], none, [], []⟩ := ⟨_, hDecode, by rfl⟩
  refine ⟨⟨_, hCarries⟩, fun room => ?_⟩
  rw [respond_post_analyze]
  cases hAnswer : analyzeBody room surrogateBody with
  | error fault => rfl
  | ok r =>
    have hRoom := (analyzeBody_eq_ok_iff.mp hAnswer).1
    rw [analyzeBody_of_carries hRoom hCarries, analysisResponse_eq_ok_iff] at hAnswer
    have hScalar := hAnswer.1 _ (path_mem_texts_analyze _)
    exact absurd (Text.isScalar_cons.mp hScalar).1 (by decide)

end Http

end DependencyMap
