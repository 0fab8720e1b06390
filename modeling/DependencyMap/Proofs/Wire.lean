import DependencyMap.Command.Run
import DependencyMap.Proofs.Json.Encoding
import Mathlib.Logic.Function.Basic

/-!
# What is sent and printed of an analysis

The service sends the wire form of an analysis compactly and the command line prints it indented.
Both are decoded to the wire form again (`Analysis.decode_written`), because it is a plain value
(`Analysis.plain_toJson`): the texts in it are those of the analysis and a few names in ASCII.
-/

namespace DependencyMap

open Json

variable {limits : Limits}

/-! ### Texts and numbers of an analysis -/

namespace Link

def texts (l : Link) : List Text := l.target :: l.names

end Link

namespace Node

def texts (n : Node) : List Text := n.path :: (n.exports ++ n.links.flatMap Link.texts)

def numbers (n : Node) : List Int := n.importance :: n.links.map fun l => (l.line : Int)

end Node

namespace Analysis

def nodes (a : Analysis) : List Node :=
  .file a.source :: (a.dependencies ++ a.dependents.map .file)

def texts (a : Analysis) : List Text := a.nodes.flatMap Node.texts

def numbers (a : Analysis) : List Int :=
  (a.totalNodes : Int) :: (a.totalEdges : Int) :: a.nodes.flatMap Node.numbers

end Analysis

/-! ### Wire forms are plain -/

theorem mem_ofSegments {pieces : List Text} {piece : Text} {c : CodePoint} (hPiece : piece ∈ pieces)
    (hc : c ∈ piece) : c ∈ Text.ofSegments pieces := by
  induction pieces with
  | nil => cases hPiece
  | cons first rest ih =>
    cases rest with
    | nil =>
      obtain rfl := List.mem_singleton.mp hPiece
      simpa [Text.ofSegments] using hc
    | cons second rest =>
      rw [Text.ofSegments, List.intercalate_cons_of_ne_nil (by simp), List.mem_append,
        List.mem_append]
      rcases List.mem_cons.mp hPiece with rfl | hPiece
      · exact Or.inl (Or.inl hc)
      · exact Or.inr (ih hPiece)

theorem isScalar_lastSegment {t : Text} (h : t.IsScalar) : t.lastSegment.IsScalar := by
  rcases List.mem_cons.mp (@List.getLastD_mem_cons _ t.segments []) with hEmpty | hPiece
  · rw [Text.lastSegment, hEmpty]
    exact Text.isScalar_nil
  · intro c hc
    rw [← Text.ofSegments_segments t] at h
    exact h c (mem_ofSegments hPiece hc)

theorem isWithin_of_le {limit : Option Nat} {m n : Nat} (hLe : m ≤ n) (h : isWithin limit n) :
    isWithin limit m := by
  cases limit with
  | none => rfl
  | some most => exact decide_eq_true (Nat.le_trans hLe (of_decide_eq_true h))

/-- One array or object takes one from the nesting that is left for what stands in it. -/
theorem isWithin_nesting_inner {n : Nat} (h : isWithin limits.nesting (n + 1)) :
    isWithin limits.inner.nesting n := by
  obtain ⟨digits, nesting⟩ := limits
  cases nesting with
  | none => rfl
  | some most => exact decide_eq_true (Nat.le_sub_one_of_lt (of_decide_eq_true h))

theorem plain_text_array {texts : List Text} (hNesting : isWithin limits.nesting 1)
    (h : ∀ t ∈ texts, t.IsScalar) : (Value.array (texts.map .text)).Plain limits := by
  refine .array hNesting fun v hv => ?_
  obtain ⟨t, ht, rfl⟩ := List.mem_map.mp hv
  exact .text (h t ht)

/-- An object is plain if its names are different and without surrogates, and its values plain. -/
theorem plain_object {members : List (Text × Value)} (hNesting : isWithin limits.nesting 1)
    (hNames : (members.map (·.1)).Nodup ∧ ∀ name ∈ members.map (·.1), name.IsScalar)
    (hValues : ∀ v ∈ members.map (·.2), v.Plain limits.inner) :
    (Value.object members).Plain limits :=
  .object hNesting hNames.1 (fun _ hm => hNames.2 _ (List.mem_map_of_mem hm))
    fun _ hm => hValues _ (List.mem_map_of_mem hm)

theorem Link.plain_toJson {l : Link} (hNesting : isWithin limits.nesting 2)
    (hTexts : ∀ t ∈ l.texts, t.IsScalar) (hLine : isWithin limits.digits (natText l.line).length) :
    l.toJson.Plain limits := by
  obtain ⟨hTarget, hNames⟩ := List.forall_mem_cons.mp hTexts
  have hNumber : (Value.integer l.line).Plain limits.inner :=
    .integer (by rwa [Int.natAbs_natCast])
  have hKind : l.kind.name.IsScalar := by cases l.kind <;> decide
  rw [toJson]
  refine plain_object (isWithin_of_le (by decide) hNesting)
    (by simp only [List.map_cons, List.map_nil]; decide +kernel) ?_
  simp only [List.map_cons, List.map_nil, List.forall_mem_cons]
  exact ⟨.text hTarget, .text hKind, plain_text_array (isWithin_nesting_inner hNesting) hNames,
    hNumber, .bool, List.forall_mem_nil _⟩

theorem isScalar_roleName (n : Node) : n.roleName.IsScalar := by
  cases n with
  | file n =>
    rw [Node.roleName]
    cases n.role <;> decide
  | outside =>
    rw [Node.roleName]
    decide

theorem isScalar_languageName (language : Language) : language.name.IsScalar := by
  cases language <;> decide

theorem Node.plain_toJson {n : Node} (hNesting : isWithin limits.nesting 4)
    (hTexts : ∀ t ∈ n.texts, t.IsScalar)
    (hNumbers : ∀ k ∈ n.numbers, isWithin limits.digits (natText k.natAbs).length) :
    n.toJson.Plain limits := by
  rw [texts, List.forall_mem_cons, List.forall_mem_append] at hTexts
  obtain ⟨hPath, hExports, hLinks⟩ := hTexts
  obtain ⟨hImportance, hLines⟩ := List.forall_mem_cons.mp hNumbers
  have hInner := isWithin_nesting_inner hNesting
  have hLinksPlain : (Value.array (n.links.map Link.toJson)).Plain limits.inner := by
    refine .array (isWithin_of_le (by decide) hInner) fun v hv => ?_
    obtain ⟨l, hl, rfl⟩ := List.mem_map.mp hv
    refine Link.plain_toJson (isWithin_nesting_inner hInner)
      (fun t ht => hLinks t (List.mem_flatMap.mpr ⟨l, hl, ht⟩)) ?_
    have hLine := hLines _ (List.mem_map.mpr ⟨l, hl, rfl⟩)
    rwa [Int.natAbs_natCast] at hLine
  rw [toJson]
  refine plain_object (isWithin_of_le (by decide) hNesting)
    (by simp only [List.map_cons, List.map_nil]; decide +kernel) ?_
  simp only [List.map_cons, List.map_nil, List.forall_mem_cons]
  exact ⟨.text hPath, .text (isScalar_lastSegment hPath), .text (isScalar_roleName n),
    .integer hImportance, hLinksPlain,
    plain_text_array (isWithin_of_le (by decide) hInner) hExports,
    .text (isScalar_languageName n.language), List.forall_mem_nil _⟩

/-- The wire form of an analysis without surrogates is a plain value, in which six arrays and
objects stand in one another. -/
theorem Analysis.plain_toJson {a : Analysis} (hNesting : isWithin limits.nesting 6)
    (hTexts : ∀ t ∈ a.texts, t.IsScalar)
    (hNumbers : ∀ k ∈ a.numbers, isWithin limits.digits (natText k.natAbs).length) :
    a.toJson.Plain limits := by
  simp only [numbers, List.forall_mem_cons] at hNumbers
  obtain ⟨hTotalNodes, hTotalEdges, hNumbers⟩ := hNumbers
  have hInner := isWithin_nesting_inner hNesting
  have hNode {within : Limits} (hRoom : isWithin within.nesting 4)
      (hDigits : within.digits = limits.digits) : ∀ n ∈ a.nodes, n.toJson.Plain within :=
    fun n hn => Node.plain_toJson hRoom
      (fun t ht => hTexts t (List.mem_flatMap.mpr ⟨n, hn, ht⟩))
      fun k hk => hDigits ▸ hNumbers k (List.mem_flatMap.mpr ⟨n, hn, hk⟩)
  have hSource := hNode (isWithin_of_le (by decide) hInner) rfl
  have hListed := hNode (isWithin_nesting_inner hInner) rfl
  simp only [nodes, List.forall_mem_cons, List.forall_mem_append, List.forall_mem_map]
    at hSource hListed
  rw [toJson]
  refine plain_object (isWithin_of_le (by decide) hNesting)
    (by simp only [List.map_cons, List.map_nil]; decide +kernel) ?_
  simp only [List.map_cons, List.map_nil, List.forall_mem_cons]
  refine ⟨hSource.1, .array (isWithin_of_le (by decide) hInner) ?_,
    .array (isWithin_of_le (by decide) hInner) ?_, .integer hTotalNodes, .integer hTotalEdges,
    List.forall_mem_nil _⟩
  · simpa using hListed.2.1
  · simpa using hListed.2.2

/-! ### The wire form determines the analysis -/

theorem text_injective : Function.Injective Value.text := fun _ _ => Value.text.inj

theorem ImportKind.name_injective : Function.Injective ImportKind.name := by
  intro k k' h
  cases k <;> cases k' <;> first | rfl | exact absurd h (by decide)

theorem Language.name_injective : Function.Injective Language.name := by
  intro l l' h
  cases l <;> cases l' <;> first | rfl | exact absurd h (by decide)

theorem Link.toJson_injective : Function.Injective Link.toJson := by
  intro l l' h
  simp only [toJson, Value.object.injEq, List.cons.injEq, Prod.mk.injEq, true_and, and_true,
    Value.text.injEq, Value.array.injEq, Value.integer.injEq, Value.bool.injEq] at h
  obtain ⟨hTarget, hKind, hNames, hLine, hExternal⟩ := h
  have hKind := ImportKind.name_injective hKind
  have hNames := List.map_injective_iff.mpr text_injective hNames
  have hLine := Int.ofNat.inj hLine
  cases l
  cases l'
  simp_all

/-- No role of a file is called like a path outside the snapshot. -/
theorem Role.name_ne_external (r : Role) : r.name ≠ "external" := by cases r <;> decide

theorem Node.toJson_injective : Function.Injective Node.toJson := by
  intro n n' h
  simp only [toJson, Value.object.injEq, List.cons.injEq, Prod.mk.injEq, true_and, and_true,
    Value.text.injEq, Value.array.injEq, Value.integer.injEq] at h
  obtain ⟨hPath, -, hRole, hImportance, hLinks, hExports, hLanguage⟩ := h
  have hLinks := List.map_injective_iff.mpr Link.toJson_injective hLinks
  have hExports := List.map_injective_iff.mpr text_injective hExports
  cases n with
  | file f =>
    cases n' with
    | file f' =>
      cases f
      cases f'
      simp_all [Node.path, Node.importance, Node.links, Node.exports]
    | outside path language => exact absurd hRole (Role.name_ne_external _)
  | outside path language =>
    cases n' with
    | file f' => exact absurd hRole.symm (Role.name_ne_external _)
    | outside path' language' =>
      obtain rfl : path = path' := hPath
      obtain rfl : language = language' := Language.name_injective hLanguage
      rfl

/-- Nothing of an analysis is missing in its wire form. -/
theorem Analysis.toJson_injective : Function.Injective Analysis.toJson := by
  intro a a' h
  simp only [toJson, Value.object.injEq, List.cons.injEq, Prod.mk.injEq, true_and, and_true,
    Value.array.injEq] at h
  obtain ⟨hSource, hDependencies, hDependents, -⟩ := h
  have hFile : Function.Injective fun n => (Node.file n).toJson :=
    Node.toJson_injective.comp fun _ _ => Node.file.inj
  have hSource := hFile hSource
  have hDependencies := List.map_injective_iff.mpr Node.toJson_injective hDependencies
  have hDependents := List.map_injective_iff.mpr hFile hDependents
  cases a
  cases a'
  simp_all

/-! ### What is printed and what is sent -/

theorem Analysis.plain_toJson_unlimited {a : Analysis} (h : ∀ t ∈ a.texts, t.IsScalar) :
    a.toJson.Plain .unlimited := a.plain_toJson rfl h fun _ _ => rfl

/-- The wire form is decoded from what it is written as in either layout. -/
theorem Analysis.decodeWithin_write {a : Analysis} (h : a.toJson.Plain limits) (layout : Layout)
    {gap : Text} (hGap : ∀ c ∈ gap, isSpace c = true) :
    decodeWithin limits (Utf8.encodeLoosely (write layout 0 a.toJson ++ gap)) = .ok a.toJson :=
  decodeWithin_write_object (List.cons_ne_nil _ _) h hGap

theorem Analysis.decodeWithin_toCompact {a : Analysis} (h : a.toJson.Plain limits) :
    decodeWithin limits (Utf8.encodeLoosely a.toJson.toCompact) = .ok a.toJson := by
  have hWrite := a.decodeWithin_write h compact (List.forall_mem_nil _)
  rwa [List.append_nil] at hWrite

theorem isSpace_newline : ∀ c ∈ Text.ofString "\n", isSpace c = true := by decide

theorem Analysis.decodeWithin_writtenJson {a : Analysis} (h : a.toJson.Plain limits) :
    decodeWithin limits (Utf8.encodeLoosely (Command.writtenJson a)) = .ok a.toJson :=
  a.decodeWithin_write h indentedAscii isSpace_newline

/-- The response has the value as its body, if that can be written. -/
theorem Http.jsonResponse_eq_ok_iff {status : Nat} {headers : Http.Headers} {v : Value}
    {r : Http.Response} : Http.jsonResponse status headers v = .ok r ↔ v.toCompact.IsScalar ∧
      r = ⟨status, headers ++ [(Http.contentType, Text.ofString "application/json")],
        Utf8.encodeLoosely v.toCompact⟩ := by
  rw [jsonResponse]
  cases hEncode : Utf8.encode v.toCompact with
  | error fault =>
    have hNot : ¬ v.toCompact.IsScalar := fun hScalar => by
      rw [Utf8.encode_eq_ok_iff.mpr ⟨hScalar, rfl⟩] at hEncode
      cases hEncode
    simp [hNot]
  | ok body =>
    obtain ⟨hScalar, rfl⟩ := Utf8.encode_eq_ok_iff.mp hEncode
    simp [hScalar, eq_comm]

/-- What is printed and what is sent of an analysis are both decoded to its wire form, in which
nothing of it is missing. Its numbers may have any size; but where more than 4300 digits are
refused, as in the bodies of requests, they must not have more. How many arrays and objects may
stand in one another makes no difference, as long as six may. -/
theorem Analysis.decode_written (a : Analysis) (hTexts : ∀ t ∈ a.texts, t.IsScalar) :
    ∃ printed sent, Utf8.encode (Command.writtenJson a) = .ok printed ∧
      Http.analysisResponse a = .ok sent ∧
      (decodeWithin .unlimited printed = .ok a.toJson ∧
        decodeWithin .unlimited sent.body = .ok a.toJson) ∧
      ((∀ n ∈ a.numbers, (natText n.natAbs).length ≤ Numeral.maxDigits) →
        ∀ room, isWithin room 6 →
          decode room printed = .ok a.toJson ∧ decode room sent.body = .ok a.toJson) ∧
      ∀ b : Analysis, b.toJson = a.toJson → b = a := by
  have hPlain := a.plain_toJson_unlimited hTexts
  have hPrinted : Utf8.encode (Command.writtenJson a) =
      .ok (Utf8.encodeLoosely (Command.writtenJson a)) :=
    Utf8.encode_eq_ok_iff.mpr ⟨Text.isScalar_append.mpr
      ⟨hPlain.isScalar_write, isScalar_of_forall_isSpace isSpace_newline⟩, rfl⟩
  have hSent := (@Http.jsonResponse_eq_ok_iff 200 Http.analysisHeaders a.toJson _).mpr
    ⟨hPlain.isScalar_write, rfl⟩
  refine ⟨_, _, hPrinted, hSent,
    ⟨a.decodeWithin_writtenJson hPlain, a.decodeWithin_toCompact hPlain⟩,
    fun hNumbers room hRoom => ?_, fun b hSame => toJson_injective hSame⟩
  have hShort : a.toJson.Plain ⟨some Numeral.maxDigits, room⟩ :=
    a.plain_toJson hRoom hTexts fun n hn => decide_eq_true (hNumbers n hn)
  exact ⟨a.decodeWithin_writtenJson hShort, a.decodeWithin_toCompact hShort⟩

/-- A file whose names have to be escaped, and a path outside the snapshot that has none below
U+FFFF. -/
def escapedAnalysis : Analysis where
  source := {
    path := "src/\"a\\é\x7f.ts", importance := 3, exports := ["\u2028", "\x00"]
    links := [⟨"😀", .named, ["x", ""], 12, true⟩] }
  dependencies := [.outside "😀" .typescript]
  dependents := []

theorem Analysis.decode_written_escapedAnalysis :
    (∀ t ∈ escapedAnalysis.texts, t.IsScalar) ∧
      ∃ printed sent, Utf8.encode (Command.writtenJson escapedAnalysis) = .ok printed ∧
        Http.analysisResponse escapedAnalysis = .ok sent ∧
        decode none printed = .ok escapedAnalysis.toJson ∧
        decode none sent.body = .ok escapedAnalysis.toJson := by
  have hTexts : ∀ t ∈ escapedAnalysis.texts, t.IsScalar := by decide +kernel
  have hNumbers : ∀ n ∈ escapedAnalysis.numbers, (natText n.natAbs).length ≤ Numeral.maxDigits := by
    decide +kernel
  obtain ⟨printed, sent, hPrinted, hSent, -, hDecode, -⟩ :=
    Analysis.decode_written escapedAnalysis hTexts
  exact ⟨hTexts, printed, sent, hPrinted, hSent, hDecode hNumbers none rfl⟩

end DependencyMap
