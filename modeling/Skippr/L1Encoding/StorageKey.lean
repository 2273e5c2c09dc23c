import Skippr.Core.Text
import Skippr.Core.Words

/-!
# Offset keys: the sanitised name of a source object

A source object is known to the offset store by its `(namespace, partition)`
pair, each rewritten for storage paths: lowercase, other characters to `_`, runs
of `_` joined, leading digits of names dropped (src/ingest_work.rs,
src/helpers/mod.rs). A runtime plugin rewrites once and the host again.
-/
namespace Skippr.L1

/-! ## The rewriting passes -/

/-- `str::to_lowercase`, as far as the passes after it can tell: a character
beyond ASCII is no letter to them, except the two whose lowercase is (or starts
with) an ASCII letter, the Kelvin sign and the dotted capital I. -/
def lowerChar (c : Char) : Text :=
  if c = '\u212a' then ['k']
  else if c = '\u0130' then ['i', '\u0307']
  else [c.toLower]

def toLowercase (t : Text) : Text := t.flatMap lowerChar

def parsesI32 : Text → Bool
  | '+' :: l => l ≠ [] && l.all Char.isDigit && Nat.ofDigitChars 10 l 0 < 2 ^ 31
  | '-' :: l => l ≠ [] && l.all Char.isDigit && Nat.ofDigitChars 10 l 0 ≤ 2 ^ 31
  | l => l ≠ [] && l.all Char.isDigit && Nat.ofDigitChars 10 l 0 < 2 ^ 31

def isFieldChar (c : Char) : Bool := c = '_' || c.isDigit || c.isLower || c.isUpper

def isTokenChar (c : Char) : Bool := c.isLower || c.isDigit || c = '_'

def isUnderscore (c : Char) : Bool := decide (c = '_')

def isLeadingDigit (c : Char) : Bool := c.isDigit && c ≠ '0'

def trimUnderscores (t : Text) : Text := trimEnd isUnderscore (t.dropWhile isUnderscore)

/-- `flatten` is the `flatten_events` setting.
mirrors src/helpers/mod.rs:148-179 -/
def cleanFieldName (flatten : Bool) (field : Text) : Text :=
  let clean :=
    if parsesI32 field then
      if flatten then field else ['i', 't', 'e', 'm', '_'] ++ field
    else field
  let clean := toLowercase clean
  let clean := clean.map fun c => if !isFieldChar c then '_' else c
  let clean := replaceRuns isUnderscore '_' false clean
  let clean := clean.dropWhile isLeadingDigit
  trimUnderscores clean

/-- mirrors ingest_work.rs:1103-1105 -/
def storageNamespace (flatten : Bool) (ns : Text) : Text := cleanFieldName flatten ns

/-- mirrors ingest_work.rs:1114-1121 -/
def storagePathToken (raw : Text) : Text :=
  let lower := toLowercase raw
  let out := replaceRuns (fun c => !isTokenChar c) '_' false lower
  trimUnderscores (replaceRuns isUnderscore '_' false out)

def storageSegment (flatten : Bool) (segment : Text) : Text :=
  match splitOnce '=' segment with
  | some (key, value) => cleanFieldName flatten key ++ '=' :: storagePathToken value
  | none => cleanFieldName flatten segment

/-- mirrors ingest_work.rs:1127-1151 -/
def storagePartition (flatten : Bool) (partition : Text) : Text :=
  if partition = [] then []
  else if '/' ∈ partition then
    ['/'].intercalate (((partition.splitOn '/').filter (· ≠ [])).map (storageSegment flatten))
  else storagePathToken partition

structure OffsetKey where
  ns : Text
  part : Text
deriving DecidableEq, Repr

/-- mirrors ingest_work.rs:1343-1352 -/
def normalizedOffsetKey (flatten : Bool) (ns part : Text) : OffsetKey :=
  ⟨storageNamespace flatten ns, storagePartition flatten part⟩

/-- mirrors ingest_work.rs:1361-1368 -/
def runtimeRoundtripOffsetKey (flatten : Bool) (ns part : Text) : OffsetKey :=
  let once := normalizedOffsetKey flatten ns part
  normalizedOffsetKey flatten once.ns once.part

/-! ## What the passes leave -/

def isSep (c : Char) : Bool := !(c.isLower || c.isDigit)

def joinWords (ws : List Text) : Text := ['_'].intercalate ws

def prefixed (flatten : Bool) (field : Text) : Text :=
  if parsesI32 field then
    if flatten then field else ['i', 't', 'e', 'm', '_'] ++ field
  else field

def fieldWords (flatten : Bool) (field : Text) : List Text :=
  words isSep ((toLowercase (prefixed flatten field)).dropWhile isLeadingDigit)

def tokenWords (raw : Text) : List Text := words isSep (toLowercase raw)

theorem isSep_underscore : isSep '_' = true := rfl

theorem toLower_not_isUpper (c : Char) : c.toLower.isUpper = false := by
  refine decide_eq_false ?_
  by_cases h : c.val ≥ 'A'.val ∧ c.val ≤ 'Z'.val
  · have hval : c.toLower.val = c.val + 32 := by
      unfold Char.toLower
      rw [dif_pos h]
      rfl
    rintro ⟨-, hle⟩
    rw [hval, UInt32.le_iff_toNat_le, UInt32.toNat_add] at hle
    have hA : 65 ≤ c.val.toNat := UInt32.le_iff_toNat_le.mp h.1
    have hZ : c.val.toNat ≤ 90 := UInt32.le_iff_toNat_le.mp h.2
    have h32 : (32 : UInt32).toNat = 32 := rfl
    have h90 : 'Z'.val.toNat = 90 := rfl
    omega
  · have hval : c.toLower = c := by
      unfold Char.toLower
      rw [dif_neg h]
    rw [hval]
    exact h

variable {t : Text} {c : Char} {ws : List Text} {fs : List Segment}

theorem not_isUpper_of_mem_toLowercase (h : c ∈ toLowercase t) : c.isUpper = false := by
  obtain ⟨x, -, hx⟩ := List.mem_flatMap.mp h
  unfold lowerChar at hx
  split at hx
  · rw [List.mem_singleton.mp hx]
    rfl
  split at hx
  · simp only [List.mem_cons, List.not_mem_nil, or_false] at hx
    rcases hx with rfl | rfl <;> rfl
  · rw [List.mem_singleton.mp hx]
    exact toLower_not_isUpper x

theorem trimUnderscores_replaceRuns (t : Text) :
    trimUnderscores (replaceRuns isSep '_' false t) = joinWords (words isSep t) :=
  trim_replaceRuns isSep_underscore t

theorem storagePathToken_eq (raw : Text) : storagePathToken raw = joinWords (tokenWords raw) := by
  have hsep : (fun c => !isTokenChar c || decide (c = '_')) = isSep := by
    funext c
    by_cases hc : c = '_'
    · subst hc
      rfl
    · simp [isTokenChar, isSep, hc]
  have hruns : replaceRuns isUnderscore '_' false
      (replaceRuns (fun c => !isTokenChar c) '_' false (toLowercase raw)) =
      replaceRuns (fun c => !isTokenChar c || decide (c = '_')) '_' false (toLowercase raw) :=
    replaceRuns_replaceRuns (p := fun c => !isTokenChar c) (r := '_')
      (id : false = true → false = true) (toLowercase raw)
  show trimUnderscores (replaceRuns isUnderscore '_' false _) = _
  rw [hruns, hsep, trimUnderscores_replaceRuns]
  rfl

theorem cleanFieldName_eq (flatten : Bool) (field : Text) :
    cleanFieldName flatten field = joinWords (fieldWords flatten field) := by
  -- Lowercase text has no capitals, so both character classes agree on it.
  have hmap : (toLowercase (prefixed flatten field)).map (fun c => if !isFieldChar c then '_' else c) =
      (toLowercase (prefixed flatten field)).map fun c => if isSep c then '_' else c := by
    refine List.map_congr_left fun c hc => ?_
    have hup := not_isUpper_of_mem_toLowercase hc
    by_cases hu : c = '_'
    · subst hu
      rfl
    · simp [isFieldChar, isSep, hup, hu, and_comm]
  have hsep : (fun c => isSep c || decide (c = '_')) = isSep := by
    funext c
    by_cases hc : c = '_'
    · subst hc
      rfl
    · simp [hc]
  have hruns : replaceRuns isUnderscore '_' false
      ((toLowercase (prefixed flatten field)).map fun c => if isSep c then '_' else c) =
      replaceRuns isSep '_' false (toLowercase (prefixed flatten field)) := by
    have := replaceRuns_map (p := isSep) (r := '_') false (toLowercase (prefixed flatten field))
    rw [hsep] at this
    exact this
  have hdigit : ∀ c, isSep c = true → isLeadingDigit c = false := by
    intro c hc
    simp only [isSep, Bool.not_eq_true', Bool.or_eq_false_iff] at hc
    simp [isLeadingDigit, hc.2]
  show trimUnderscores ((replaceRuns isUnderscore '_' false
    ((toLowercase (prefixed flatten field)).map _)).dropWhile isLeadingDigit) = _
  rw [hmap, hruns, dropWhile_replaceRuns_of_letters hdigit isSep_underscore,
    trimUnderscores_replaceRuns]
  rfl

/-! ## The second rewrite -/

theorem lowerChar_of_not_isSep (h : isSep c = false) : lowerChar c = [c] := by
  have hc : c.isLower = true ∨ c.isDigit = true := by simpa [isSep, or_iff_not_imp_left] using h
  have hle : c.val.toNat ≤ 57 ∨ 97 ≤ c.val.toNat ∧ c.val.toNat ≤ 122 := by
    rcases hc with hc | hc
    · simp only [Char.isLower, Bool.and_eq_true, decide_eq_true_eq, UInt32.le_iff_toNat_le,
        ge_iff_le] at hc
      exact .inr hc
    · simp only [Char.isDigit, Bool.and_eq_true, decide_eq_true_eq, UInt32.le_iff_toNat_le,
        ge_iff_le] at hc
      exact .inl hc.2
  have hne : ∀ d : Char, 122 < d.val.toNat → c ≠ d := by
    rintro d hd rfl
    omega
  unfold lowerChar
  rw [if_neg (hne _ (by decide)), if_neg (hne _ (by decide))]
  unfold Char.toLower
  rw [dif_neg]
  rintro ⟨hA, hZ⟩
  have hA : 65 ≤ c.val.toNat := UInt32.le_iff_toNat_le.mp hA
  have hZ : c.val.toNat ≤ 90 := UInt32.le_iff_toNat_le.mp hZ
  omega

theorem toLowercase_append (s t : Text) : toLowercase (s ++ t) = toLowercase s ++ toLowercase t :=
  List.flatMap_append

theorem toLowercase_eq_self (h : ∀ c ∈ t, lowerChar c = [c]) : toLowercase t = t := by
  induction t with
  | nil => rfl
  | cons c t ih =>
    rw [toLowercase, List.flatMap_cons, h c List.mem_cons_self]
    exact congrArg (c :: ·) (ih (List.forall_mem_cons.1 h).2)

theorem toLowercase_joinWords (h : AreWords isSep ws) :
    toLowercase (joinWords ws) = joinWords ws := by
  refine toLowercase_eq_self fun c hc => ?_
  rcases mem_intercalate hc with rfl | ⟨w, hw, hc⟩
  · rfl
  · exact lowerChar_of_not_isSep ((h w hw).2 c hc)

theorem tokenWords_joinWords (h : AreWords isSep ws) : tokenWords (joinWords ws) = ws := by
  rw [tokenWords, toLowercase_joinWords h]
  exact words_intercalate isSep_underscore h

def isNumber : List Text → Bool
  | [w] => parsesI32 w
  | _ => false

/-- Drop leading digits of the first word, and the word if it has no others. -/
def dropDigits : List Text → List Text
  | [] => []
  | w :: ws => if w.dropWhile isLeadingDigit = [] then ws else w.dropWhile isLeadingDigit :: ws

/-- What the second rewrite of a field name keeps of the first. -/
def againWords (flatten : Bool) (ws : List Text) : List Text :=
  if isNumber ws && !flatten then ['i', 't', 'e', 'm'] :: ws else dropDigits ws

theorem underscore_notMem_of_parsesI32 (h : parsesI32 t = true) : '_' ∉ t := by
  have hdigits : ∀ l : Text, l.all Char.isDigit = true → '_' ∉ l := by
    intro l hl hmem
    exact absurd (List.all_eq_true.mp hl _ hmem) (by decide)
  unfold parsesI32 at h
  split at h
  all_goals
    simp only [Bool.and_eq_true] at h
    have := hdigits _ h.1.2
    simpa using this

theorem parsesI32_joinWords : parsesI32 (joinWords ws) = isNumber ws := by
  match ws with
  | [] => rfl
  | [w] => simp [joinWords, isNumber]
  | w :: v :: vs =>
    rw [isNumber]
    · refine Bool.eq_false_iff.mpr fun h => ?_
      refine underscore_notMem_of_parsesI32 h ?_
      simp [joinWords]
    · simp

theorem areWords_dropDigits (h : AreWords isSep ws) : AreWords isSep (dropDigits ws) := by
  cases ws with
  | nil => exact h
  | cons w ws =>
    rw [dropDigits]
    split
    · exact h.tail
    · rename_i hne
      refine .cons hne ?_ h.tail
      intro c hc
      exact (h w List.mem_cons_self).2 c ((List.dropWhile_sublist _).subset hc)

theorem areWords_item (h : AreWords isSep ws) : AreWords isSep (['i', 't', 'e', 'm'] :: ws) := by
  refine .cons (by simp) (fun c hc => ?_) h
  simp only [List.mem_cons, List.not_mem_nil, or_false] at hc
  rcases hc with rfl | rfl | rfl | rfl <;> rfl

theorem areWords_againWords (flatten : Bool) (h : AreWords isSep ws) :
    AreWords isSep (againWords flatten ws) := by
  unfold againWords
  split
  · exact areWords_item h
  · exact areWords_dropDigits h

theorem words_dropWhile_joinWords (h : AreWords isSep ws) :
    words isSep ((joinWords ws).dropWhile isLeadingDigit) = dropDigits ws := by
  cases ws with
  | nil => rfl
  | cons w ws => exact words_dropWhile_intercalate isSep_underscore rfl h

theorem fieldWords_joinWords (flatten : Bool) (h : AreWords isSep ws) :
    fieldWords flatten (joinWords ws) = againWords flatten ws := by
  unfold fieldWords prefixed againWords
  rw [parsesI32_joinWords]
  cases hn : isNumber ws with
  | false =>
    simp only [Bool.false_eq_true, if_false, Bool.false_and]
    rw [toLowercase_joinWords h, words_dropWhile_joinWords h]
  | true =>
    cases flatten with
    | true =>
      simp only [if_true, Bool.not_true, Bool.and_false, Bool.false_eq_true, if_false]
      rw [toLowercase_joinWords h, words_dropWhile_joinWords h]
    | false =>
      -- A number has one word, so the prefix makes two.
      have hitem : ['i', 't', 'e', 'm', '_'] ++ joinWords ws =
          joinWords (['i', 't', 'e', 'm'] :: ws) := by
        cases ws with
        | nil => cases hn
        | cons w ws => simp [joinWords]
      have hi := areWords_item h
      simp only [if_true, Bool.false_eq_true, if_false, Bool.not_false, Bool.and_true]
      rw [hitem, toLowercase_joinWords hi, words_dropWhile_joinWords hi]
      rfl

/-! ## Partitions -/

inductive Segment
  | name (words : List Text)
  | pair (key value : List Text)
deriving DecidableEq, Repr

namespace Segment

def render : Segment → Text
  | .name ws => joinWords ws
  | .pair key value => joinWords key ++ '=' :: joinWords value

def allWords : Segment → List Text
  | .name ws => ws
  | .pair key value => key ++ value

def ofText (flatten : Bool) (segment : Text) : Segment :=
  match splitOnce '=' segment with
  | some (key, value) => .pair (fieldWords flatten key) (tokenWords value)
  | none => .name (fieldWords flatten segment)

def again (flatten : Bool) : Segment → Segment
  | .name ws => .name (againWords flatten ws)
  | .pair key value => .pair (againWords flatten key) value

def Ok : Segment → Prop
  | .name ws => AreWords isSep ws
  | .pair key value => AreWords isSep key ∧ AreWords isSep value

end Segment

theorem areWords_fieldWords (flatten : Bool) (t : Text) : AreWords isSep (fieldWords flatten t) :=
  areWords_words _ _

theorem areWords_tokenWords (t : Text) : AreWords isSep (tokenWords t) := areWords_words _ _

namespace Segment

theorem ok_ofText (flatten : Bool) (t : Text) : (ofText flatten t).Ok := by
  unfold ofText
  split
  · exact ⟨areWords_fieldWords _ _, areWords_tokenWords _⟩
  · exact areWords_fieldWords _ _

theorem ok_again (flatten : Bool) : ∀ {f : Segment}, f.Ok → (f.again flatten).Ok
  | .name _, h => areWords_againWords flatten h
  | .pair _ _, h => ⟨areWords_againWords flatten h.1, h.2⟩

theorem Ok.areWords : ∀ {f : Segment}, f.Ok → AreWords isSep f.allWords
  | .name _, h => h
  | .pair _ _, h => h.1.append h.2

end Segment

theorem storageSegment_eq (flatten : Bool) (t : Text) :
    storageSegment flatten t = (Segment.ofText flatten t).render := by
  unfold storageSegment Segment.ofText
  split
  · rw [cleanFieldName_eq, storagePathToken_eq]
    rfl
  · rw [cleanFieldName_eq]
    rfl

theorem notMem_joinWords (hc : isSep c = true) (hne : c ≠ '_') (h : AreWords isSep ws) :
    c ∉ joinWords ws := by
  intro hmem
  rcases mem_intercalate hmem with hu | ⟨w, hw, hcw⟩
  · exact hne hu
  · rw [(h w hw).2 c hcw] at hc
    cases hc

theorem joinWords_eq_nil (h : AreWords isSep ws) : joinWords ws = [] ↔ ws = [] := by
  constructor
  · intro hnil
    cases ws with
    | nil => rfl
    | cons w ws => exact absurd hnil (intercalate_ne_nil (h w List.mem_cons_self).1)
  · rintro rfl
    rfl

namespace Segment

theorem notMem_render {c : Char} (hc : isSep c = true) (hu : c ≠ '_') (he : c ≠ '=') :
    ∀ {f : Segment}, f.Ok → c ∉ f.render
  | .name _, h => notMem_joinWords hc hu h
  | .pair _ _, h => by
    intro hmem
    rcases List.mem_append.mp hmem with hk | hv
    · exact notMem_joinWords hc hu h.1 hk
    · rcases List.mem_cons.mp hv with heq | hv
      · exact he heq
      · exact notMem_joinWords hc hu h.2 hv

theorem slash_notMem_render {f : Segment} (h : f.Ok) : '/' ∉ f.render :=
  notMem_render rfl (by decide) (by decide) h

theorem render_eq_nil : ∀ {f : Segment}, f.Ok → (f.render = [] ↔ f = .name [])
  | .name ws, h => by
    rw [render, joinWords_eq_nil h]
    simp
  | .pair _ _, _ => by simp [render]

theorem splitOnce_render_name {ws : List Text} (h : AreWords isSep ws) :
    splitOnce '=' (render (.name ws)) = none :=
  splitOnce_eq_none (notMem_joinWords rfl (by decide) h)

theorem splitOnce_render_pair {key : List Text} (value : List Text) (h : AreWords isSep key) :
    splitOnce '=' (render (.pair key value)) = some (joinWords key, joinWords value) :=
  splitOnce_append (notMem_joinWords rfl (by decide) h) _

theorem ofText_render (flatten : Bool) : ∀ {f : Segment}, f.Ok → ofText flatten f.render = f.again flatten
  | .name ws, h => by
    rw [ofText, splitOnce_render_name h]
    exact congrArg name (fieldWords_joinWords flatten h)
  | .pair key value, h => by
    rw [ofText, splitOnce_render_pair value h.1]
    exact congrArg₂ pair (fieldWords_joinWords flatten h.1) (tokenWords_joinWords h.2)

theorem tokenWords_render : ∀ {f : Segment}, f.Ok → tokenWords f.render = f.allWords
  | .name _, h => tokenWords_joinWords h
  | .pair key value, h => by
    have hcons : ∀ t : Text, toLowercase ('=' :: t) = '=' :: toLowercase t := fun _ => rfl
    rw [tokenWords, render, toLowercase_append, hcons, words_append_sep rfl]
    exact congrArg₂ (· ++ ·) (tokenWords_joinWords h.1) (tokenWords_joinWords h.2)

end Segment

def renderPath (fs : List Segment) : Text := ['/'].intercalate (fs.map Segment.render)

def pathSegments (partition : Text) : List Text := (partition.splitOn '/').filter (· ≠ [])

theorem storagePartition_flat (flatten : Bool) (h : '/' ∉ t) :
    storagePartition flatten t = joinWords (tokenWords t) := by
  unfold storagePartition
  split
  · rename_i hnil
    subst hnil
    rfl
  · exact storagePathToken_eq t

theorem storagePartition_path (flatten : Bool) (h : '/' ∈ t) :
    storagePartition flatten t = renderPath ((pathSegments t).map (Segment.ofText flatten)) := by
  have hne : t ≠ [] := List.ne_nil_of_mem h
  have hseg : storageSegment flatten = Segment.render ∘ Segment.ofText flatten :=
    funext (storageSegment_eq flatten)
  rw [storagePartition, if_neg hne, if_pos h, renderPath, List.map_map, hseg]
  rfl

theorem pathSegments_renderPath (hok : ∀ f ∈ fs, f.Ok) (hne : fs ≠ []) :
    pathSegments (renderPath fs) = (fs.filter (· ≠ .name [])).map Segment.render := by
  have hslash : ∀ t ∈ fs.map Segment.render, '/' ∉ t := by
    exact List.forall_mem_map.2 fun f hf => Segment.slash_notMem_render (hok f hf)
  rw [pathSegments, renderPath, List.splitOn_intercalate '/' hslash (by simpa using hne),
    List.filter_map]
  congr 1
  refine List.filter_congr fun f hf => ?_
  simp [Segment.render_eq_nil (hok f hf)]

def againPath (flatten : Bool) : List Segment → List Segment
  | [] => []
  | [f] => [.name f.allWords]
  | fs => (fs.filter (· ≠ .name [])).map (Segment.again flatten)

theorem storagePartition_renderPath (flatten : Bool) (hok : ∀ f ∈ fs, f.Ok) :
    storagePartition flatten (renderPath fs) = renderPath (againPath flatten fs) := by
  match fs with
  | [] => rfl
  | [f] =>
    have hf : f.Ok := hok f List.mem_cons_self
    have hr : renderPath [f] = f.render := List.intercalate_singleton
    rw [hr, storagePartition_flat flatten (Segment.slash_notMem_render hf),
      Segment.tokenWords_render hf]
    exact List.intercalate_singleton.symm
  | f :: g :: fs =>
    have hslash : '/' ∈ renderPath (f :: g :: fs) := by simp [renderPath]
    have hagain : againPath flatten (f :: g :: fs) =
        ((f :: g :: fs).filter (· ≠ .name [])).map (Segment.again flatten) := rfl
    rw [storagePartition_path flatten hslash, pathSegments_renderPath hok (by simp), hagain,
      List.map_map]
    congr 1
    refine List.map_congr_left fun x hx => ?_
    exact Segment.ofText_render flatten (hok x (List.mem_of_mem_filter hx))

/-! ## What a key keeps -/

def dropEmpty : List Segment → List Segment
  | [.name []] => []
  | fs => fs

def namespaceKept (flatten : Bool) (ns : Text) : List Text :=
  againWords flatten (fieldWords flatten ns)

def partitionKept (flatten : Bool) (part : Text) : List Segment :=
  dropEmpty (if '/' ∈ part then
      againPath flatten ((pathSegments part).map (Segment.ofText flatten))
    else [.name (tokenWords part)])

theorem renderPath_dropEmpty (fs : List Segment) : renderPath (dropEmpty fs) = renderPath fs := by
  unfold dropEmpty
  split <;> rfl

theorem dropEmpty_ne (fs : List Segment) : dropEmpty fs ≠ [.name []] := by
  unfold dropEmpty
  split
  · simp
  · rename_i hne
    exact hne

theorem ok_againPath (flatten : Bool) (hok : ∀ f ∈ fs, f.Ok) :
    ∀ f ∈ againPath flatten fs, f.Ok := by
  unfold againPath
  split
  · nofun
  · rename_i f
    intro g hg
    rw [List.mem_singleton.mp hg]
    exact (hok f List.mem_cons_self).areWords
  · refine List.forall_mem_map.2 fun f hf => ?_
    exact Segment.ok_again flatten (hok f (List.mem_of_mem_filter hf))

theorem ok_map_ofText (flatten : Bool) (ts : List Text) :
    ∀ f ∈ ts.map (Segment.ofText flatten), f.Ok := by
  exact List.forall_mem_map.2 fun t _ => Segment.ok_ofText flatten t

theorem ok_partitionKept (flatten : Bool) (part : Text) :
    ∀ f ∈ partitionKept flatten part, f.Ok := by
  intro f hf
  unfold partitionKept dropEmpty at hf
  split at hf
  · cases hf
  split at hf
  · exact ok_againPath flatten (ok_map_ofText flatten _) f hf
  · rw [List.mem_singleton.mp hf]
    exact areWords_tokenWords part

theorem storagePartition_twice (flatten : Bool) (part : Text) :
    storagePartition flatten (storagePartition flatten part) =
      renderPath (partitionKept flatten part) := by
  rw [partitionKept, renderPath_dropEmpty]
  split
  · rename_i h
    rw [storagePartition_path flatten h, storagePartition_renderPath flatten (ok_map_ofText flatten _)]
  · rename_i h
    have hw := areWords_tokenWords part
    rw [storagePartition_flat flatten h,
      storagePartition_flat flatten (notMem_joinWords rfl (by decide) hw), tokenWords_joinWords hw]
    exact List.intercalate_singleton.symm

theorem storageNamespace_twice (flatten : Bool) (ns : Text) :
    storageNamespace flatten (storageNamespace flatten ns) =
      joinWords (namespaceKept flatten ns) := by
  rw [storageNamespace, storageNamespace, cleanFieldName_eq, cleanFieldName_eq,
    fieldWords_joinWords flatten (areWords_fieldWords flatten ns)]
  rfl

/-! ## Reading a key back -/

def readSegment (t : Text) : Segment :=
  match splitOnce '=' t with
  | some (key, value) => .pair (words isSep key) (words isSep value)
  | none => .name (words isSep t)

def readPath (t : Text) : List Segment :=
  if t = [] then [] else (t.splitOn '/').map readSegment

theorem readSegment_render : ∀ {f : Segment}, f.Ok → readSegment f.render = f
  | .name ws, h => by
    rw [readSegment, Segment.splitOnce_render_name h]
    exact congrArg Segment.name (words_intercalate isSep_underscore h)
  | .pair key value, h => by
    rw [readSegment, Segment.splitOnce_render_pair value h.1]
    exact congrArg₂ Segment.pair (words_intercalate isSep_underscore h.1)
      (words_intercalate isSep_underscore h.2)

theorem readPath_renderPath (hok : ∀ f ∈ fs, f.Ok) (hne : fs ≠ [.name []]) :
    readPath (renderPath fs) = fs := by
  cases hfs : fs with
  | nil => rfl
  | cons f rest =>
    rw [← hfs]
    have hslash : ∀ t ∈ fs.map Segment.render, '/' ∉ t := by
      exact List.forall_mem_map.2 fun g hg => Segment.slash_notMem_render (hok g hg)
    have hnil : fs.map Segment.render ≠ [] := by simp [hfs]
    have hsplit := List.splitOn_intercalate '/' hslash hnil
    have htext : renderPath fs ≠ [] := by
      intro h
      rw [← renderPath, h] at hsplit
      -- An empty path text is one empty segment.
      have hone : fs.map Segment.render = [[]] := hsplit.symm
      obtain ⟨g, rfl⟩ : ∃ g, fs = [g] := by
        refine List.length_eq_one_iff.mp ?_
        simpa using congrArg List.length hone
      have hg : g.render = [] := by simpa using hone
      rw [(Segment.render_eq_nil (hok g List.mem_cons_self)).mp hg] at hne
      exact hne rfl
    rw [readPath, if_neg htext, renderPath, hsplit, List.map_map]
    refine (List.map_congr_left fun g hg => ?_).trans (List.map_id fs)
    exact readSegment_render (hok g hg)

theorem renderPath_partitionKept_inj {flatten flatten' : Bool} {part part' : Text} :
    renderPath (partitionKept flatten part) = renderPath (partitionKept flatten' part') ↔
      partitionKept flatten part = partitionKept flatten' part' := by
  constructor
  · intro h
    rw [← readPath_renderPath (ok_partitionKept flatten part) (dropEmpty_ne _), h,
      readPath_renderPath (ok_partitionKept flatten' part') (dropEmpty_ne _)]
  · intro h
    rw [h]

theorem joinWords_namespaceKept_inj {flatten flatten' : Bool} {ns ns' : Text} :
    joinWords (namespaceKept flatten ns) = joinWords (namespaceKept flatten' ns') ↔
      namespaceKept flatten ns = namespaceKept flatten' ns' := by
  constructor
  · exact intercalate_inj isSep_underscore (areWords_againWords _ (areWords_fieldWords _ _))
      (areWords_againWords _ (areWords_fieldWords _ _))
  · intro h
    rw [h]

theorem runtimeRoundtripOffsetKey_eq (flatten : Bool) (ns part : Text) :
    runtimeRoundtripOffsetKey flatten ns part =
      ⟨joinWords (namespaceKept flatten ns), renderPath (partitionKept flatten part)⟩ := by
  rw [← storageNamespace_twice, ← storagePartition_twice]
  rfl

/-- **Same key, same words.** Two pairs share an offset key exactly when the
rewrites keep the same words of both. -/
theorem runtimeRoundtripOffsetKey_eq_iff (flatten : Bool) (ns part ns' part' : Text) :
    runtimeRoundtripOffsetKey flatten ns part = runtimeRoundtripOffsetKey flatten ns' part' ↔
      namespaceKept flatten ns = namespaceKept flatten ns' ∧
        partitionKept flatten part = partitionKept flatten part' := by
  rw [runtimeRoundtripOffsetKey_eq, runtimeRoundtripOffsetKey_eq, OffsetKey.mk.injEq,
    joinWords_namespaceKept_inj, renderPath_partitionKept_inj]

/-! ## Names of which every word is kept -/

def beginsWithLetter : Text → Bool
  | [] => false
  | c :: _ => c.isLower

/-- A name without capitals that begins with a letter. -/
structure IsName (t : Text) : Prop where
  lower : ∀ c ∈ t, lowerChar c = [c]
  letter : beginsWithLetter t = true

/-- A path without capitals whose segments begin with a letter. -/
structure IsPath (t : Text) : Prop where
  lower : ∀ c ∈ t, lowerChar c = [c]
  letters : '/' ∈ t → ∀ segment ∈ pathSegments t, beginsWithLetter segment = true

theorem digit_of_isLower (h : c.isLower = true) : c.isDigit = false ∧ c ≠ '+' ∧ c ≠ '-' := by
  refine ⟨?_, ?_, ?_⟩
  · simp only [Char.isLower, Char.isDigit, Bool.and_eq_true, decide_eq_true_eq,
      UInt32.le_iff_toNat_le, ge_iff_le] at h ⊢
    rw [Bool.eq_false_iff]
    intro hd
    simp only [Bool.and_eq_true, decide_eq_true_eq] at hd
    have h97 : 'a'.val.toNat = 97 := rfl
    have h57 : '9'.val.toNat = 57 := rfl
    omega
  · rintro rfl
    cases h
  · rintro rfl
    cases h

theorem parsesI32_of_letter (h : beginsWithLetter t = true) : parsesI32 t = false := by
  cases t with
  | nil => rfl
  | cons c t =>
    obtain ⟨hdigit, hplus, hminus⟩ := digit_of_isLower h
    unfold parsesI32
    split
    · rename_i heq
      exact absurd (List.cons.inj heq).1 hplus
    · rename_i heq
      exact absurd (List.cons.inj heq).1 hminus
    · simp [hdigit]

theorem dropWhile_of_letter (h : beginsWithLetter t = true) : t.dropWhile isLeadingDigit = t := by
  cases t with
  | nil => rfl
  | cons c t =>
    refine List.dropWhile_cons_of_neg ?_
    simp [isLeadingDigit, (digit_of_isLower h).1]

theorem fieldWords_of_name (flatten : Bool) (h : IsName t) : fieldWords flatten t = words isSep t := by
  rw [fieldWords, prefixed, parsesI32_of_letter h.letter, if_neg Bool.false_ne_true,
    toLowercase_eq_self h.lower, dropWhile_of_letter h.letter]

theorem againWords_of_letter (flatten : Bool) (h : beginsWithLetter t = true) :
    againWords flatten (words isSep t) = words isSep t := by
  cases t with
  | nil => rfl
  | cons c t =>
    have hc : c.isLower = true := h
    have hsep : isSep c = false := by simp [isSep, hc]
    obtain ⟨w, ws, hw⟩ : ∃ w ws, words isSep (c :: t) = (c :: w) :: ws := by
      simp only [words, hsep, Bool.false_eq_true, if_false]
      split
      · cases words isSep t <;> exact ⟨_, _, rfl⟩
      · exact ⟨_, _, rfl⟩
    have hletter : beginsWithLetter (c :: w) = true := h
    have hnumber : isNumber ((c :: w) :: ws) = false := by
      cases ws with
      | nil => exact parsesI32_of_letter hletter
      | cons v vs => rfl
    rw [hw, againWords, hnumber, Bool.false_and, if_neg Bool.false_ne_true, dropDigits,
      dropWhile_of_letter hletter, if_neg (List.cons_ne_nil c w)]

theorem tokenWords_of_lower (h : ∀ c ∈ t, lowerChar c = [c]) : tokenWords t = words isSep t := by
  rw [tokenWords, toLowercase_eq_self h]

theorem allWords_ofText (flatten : Bool) (h : IsName t) :
    (Segment.ofText flatten t).allWords = words isSep t ∧
      ((Segment.ofText flatten t).again flatten).allWords = words isSep t := by
  unfold Segment.ofText
  cases hsplit : splitOnce '=' t with
  | none =>
    simp only [Segment.allWords, Segment.again, fieldWords_of_name flatten h,
      againWords_of_letter flatten h.letter, and_self]
  | some parts =>
    obtain ⟨key, value⟩ := parts
    obtain rfl := splitOnce_eq_some hsplit
    have hlower := List.forall_mem_append.1 h.lower
    have hkey : IsName key := by
      refine ⟨hlower.1, ?_⟩
      cases key with
      | nil => exact h.letter
      | cons c key => exact h.letter
    simp only [Segment.allWords, Segment.again, fieldWords_of_name flatten hkey,
      againWords_of_letter flatten hkey.letter, tokenWords_of_lower (List.forall_mem_cons.1 hlower.2).2,
      words_append_sep (show isSep '=' = true from rfl), and_self]

theorem words_intercalate_slash (ts : List Text) :
    words isSep (['/'].intercalate ts) = ts.flatMap (words isSep) := by
  induction ts with
  | nil => rfl
  | cons t ts ih =>
    cases ts with
    | nil => simp [List.intercalate]
    | cons u ts =>
      rw [List.intercalate_cons_cons, List.append_assoc, List.singleton_append,
        words_append_sep rfl, ih]
      rfl

theorem words_pathSegments (t : Text) : (pathSegments t).flatMap (words isSep) = words isSep t := by
  have hsplit := words_intercalate_slash (t.splitOn '/')
  rw [List.intercalate_splitOn] at hsplit
  rw [hsplit, pathSegments]
  induction t.splitOn '/' with
  | nil => rfl
  | cons u ts ih =>
    by_cases hu : u = []
    · simpa [hu, words] using ih
    · simpa [hu] using ih

theorem allWords_filter (flatten : Bool) (fs : List Segment) :
    ((fs.filter (· ≠ .name [])).map (Segment.again flatten)).flatMap Segment.allWords =
      fs.flatMap fun f => (f.again flatten).allWords := by
  induction fs with
  | nil => rfl
  | cons f fs ih =>
    by_cases hf : f = .name []
    · have hnil : (Segment.again flatten (.name [])).allWords = [] := rfl
      simpa [hf, hnil] using ih
    · simpa [hf] using ih

theorem allWords_partitionKept (flatten : Bool) (h : IsPath t) :
    (partitionKept flatten t).flatMap Segment.allWords = words isSep t := by
  have hdrop : ∀ fs : List Segment,
      (dropEmpty fs).flatMap Segment.allWords = fs.flatMap Segment.allWords := by
    intro fs
    unfold dropEmpty
    split <;> rfl
  rw [partitionKept, hdrop]
  split
  swap
  · simp [Segment.allWords, tokenWords_of_lower h.lower]
  rename_i hslash
  have hname : ∀ u ∈ pathSegments t, IsName u := by
    refine fun u hu => ⟨fun c hc => h.lower c ?_, h.letters hslash u hu⟩
    rw [← show ['/'].intercalate (t.splitOn '/') = t from List.intercalate_splitOn '/']
    exact mem_intercalate_of_mem (List.mem_of_mem_filter hu) hc
  rw [← words_pathSegments]
  generalize pathSegments t = ts at hname
  match ts with
  | [] => rfl
  | [u] =>
    show (Segment.ofText flatten u).allWords ++ [] = words isSep u ++ []
    rw [(allWords_ofText flatten (hname u List.mem_cons_self)).1]
  | u :: v :: ts =>
    have hagain : againPath flatten ((u :: v :: ts).map (Segment.ofText flatten)) =
        (((u :: v :: ts).map (Segment.ofText flatten)).filter (· ≠ .name [])).map
          (Segment.again flatten) := rfl
    rw [hagain, allWords_filter, List.flatMap_map]
    exact List.flatMap_congr fun w hw => (allWords_ofText flatten (hname w hw)).2

end Skippr.L1
