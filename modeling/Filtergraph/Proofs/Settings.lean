import Filtergraph.Catalogue
import Filtergraph.Proofs.Lists
import Filtergraph.Proofs.ValueGrammar

/-!
# Parameters and settings

The catalogue says twice what a kind of operation needs: by the list of its parameters, which is
shown to the user and against which the given keys are held, and by the way it is made, which
asks for parameters by name, one after the other, each as a value of some type.

Here the two are brought together. A table says of every parameter what it takes, and the values
it takes are told by the grammar of values. An operation is seen as a list of settings with
names. Then for every kind, making the operation is to go through its parameters in order and to
take the value of each, given or by default. What is made, what is refused and why all follow
from this.
-/

namespace Filtergraph

open Filtergraph.Graph

/-! ## Values of parameters -/

/-- What a parameter takes. -/
inductive ValueKind where
  | text
  /-- A signed 32-bit number. -/
  | signed
  /-- An unsigned 32-bit number. -/
  | unsigned
  /-- A 32-bit floating-point number. -/
  | number
  | flag
  /-- A finite number above zero. -/
  | positive
  /-- A finite number above zero, of which the reciprocal is kept. -/
  | pace
deriving DecidableEq

/-- What an operation keeps of a parameter. -/
inductive Setting where
  | text (text : String)
  | whole (i : Int)
  | number (x : Single)
  | flag (on : Bool)

namespace ValueKind

/-- The texts that a parameter takes, and what is kept of them. Blanks around a value do not
matter, unless any text is a value. -/
inductive Takes : ValueKind → String → Setting → Prop where
  | text (raw : String) : Takes .text raw (.text raw)
  | signed {raw : String} {cs : List Char} {i : Int} (htrim : Trimmed raw.toList cs)
    (h : IntNumeral cs i) (hlow : -2 ^ 31 ≤ i) (hhigh : i < 2 ^ 31) : Takes .signed raw (.whole i)
  | unsigned {raw : String} {cs : List Char} {n : Nat} (htrim : Trimmed raw.toList cs)
    (h : NatNumeral cs n) (hhigh : n < 2 ^ 32) : Takes .unsigned raw (.whole n)
  | number {raw : String} {cs : List Char} {x : Single} (htrim : Trimmed raw.toList cs)
    (h : Binary.Denotes cs x) : Takes .number raw (.number x)
  | on {raw : String} (htrim : Trimmed raw.toList "true".toList) : Takes .flag raw (.flag true)
  | off {raw : String} (htrim : Trimmed raw.toList "false".toList) : Takes .flag raw (.flag false)
  | positive {raw : String} {x : Single} {q : ℚ} (h : Takes .number raw (.number x))
    (hvalue : x.value? = some q) (hpos : 0 < q) : Takes .positive raw (.number x)
  | pace {raw : String} {x y : Single} {q : ℚ} (h : Takes .positive raw (.number x))
    (hvalue : x.value? = some q) (hy : Binary.Rounds false q⁻¹ y) : Takes .pace raw (.number y)

/-- The kind without its condition on the number. -/
def base : ValueKind → ValueKind
  | positive => number
  | pace => number
  | kind => kind

/-- The name of the type in messages. -/
def typeName : ValueKind → String
  | text => "String"
  | signed => "i32"
  | unsigned => "u32"
  | number => "f32"
  | flag => "bool"
  | positive => "f32"
  | pace => "f32"

/-- What is wrong with a text that is not taken. -/
inductive Faults (kind : ValueKind) (raw : String) : ParameterFault → Prop where
  | unreadable (h : ∀ v, ¬ kind.base.Takes raw v) : Faults kind raw (.unreadable raw kind.typeName)
  | notPositive {v : Setting} (hv : kind.base.Takes raw v) (h : ∀ v, ¬ kind.Takes raw v) :
    Faults kind raw .notPositive

end ValueKind

namespace Arguments

variable {α : Type} {a : Arguments} {name type raw : String} {read? : List Char → Option α} {x : α}
  {e : PipelineError} {kind : ValueKind} {v : Setting}

/-- The value of a parameter as it is kept. -/
def setting (a : Arguments) : ValueKind → String → Except PipelineError Setting
  | .text, name => .text <$> a.text name
  | .signed, name => .whole <$> a.signed name
  | .unsigned, name => (fun n : Nat => .whole n) <$> a.unsigned name
  | .number, name => .number <$> a.number name
  | .flag, name => .flag <$> a.flag name
  | .positive, name => .number <$> a.positive name
  | .pace, name => (fun x => .number x.reciprocal) <$> a.positive name

/-- A value is read from the trimmed text of its parameter. -/
theorem reading_eq_ok : reading type read? a name = .ok x ↔
    ∃ raw, a.text name = .ok raw ∧ ∃ cs, Trimmed raw.toList cs ∧ read? cs = some x := by
  unfold reading
  rw [except_bind_eq_ok]
  refine exists_congr fun raw => and_congr_right fun _ => ?_
  simp only [← trimBlanks_eq, exists_eq_left']
  cases read? (trimBlanks raw.toList) with
  | none => simp [throw, throwThe, MonadExceptOf.throw]
  | some y => simp [pure, Except.pure]

/-- A text that cannot be read is quoted in the message, with the type. -/
theorem reading_eq_error (htext : a.text name = .ok raw)
    (h : reading type read? a name = .error e) :
    e = .invalidParameter a.operation name (.unreadable raw type) := by
  unfold reading at h
  rw [htext] at h
  rcases except_bind_eq_error.mp h with h | ⟨raw', hraw, h⟩
  · exact absurd h (by simp)
  · obtain rfl := Except.ok.inj hraw
    cases hread : read? (trimBlanks raw.toList) with
    | none =>
      rw [hread] at h
      exact (Except.error.inj h).symm
    | some y =>
      rw [hread] at h
      exact absurd h (by simp [pure, Except.pure])

theorem signed_eq_ok {i : Int} : a.signed name = .ok i ↔
    ∃ raw, a.text name = .ok raw ∧ ValueKind.signed.Takes raw (.whole i) := by
  unfold signed
  rw [reading_eq_ok]
  simp only [readIntBetween?_eq_some]
  refine exists_congr fun raw => and_congr_right fun _ => ⟨?_, fun h => ?_⟩
  · rintro ⟨cs, htrim, h, hlow, hhigh⟩
    exact .signed htrim h hlow hhigh
  · cases h with
    | signed htrim h hlow hhigh => exact ⟨_, htrim, h, hlow, hhigh⟩

theorem unsigned_eq_ok {n : Nat} : a.unsigned name = .ok n ↔
    ∃ raw, a.text name = .ok raw ∧ ValueKind.unsigned.Takes raw (.whole n) := by
  unfold unsigned
  rw [reading_eq_ok]
  simp only [readNatBelow?_eq_some]
  refine exists_congr fun raw => and_congr_right fun _ => ⟨?_, fun h => ?_⟩
  · rintro ⟨cs, htrim, h, hhigh⟩
    exact .unsigned htrim h hhigh
  · generalize hv : Setting.whole n = v at h
    cases h with
    | unsigned htrim h hhigh =>
      obtain rfl := Int.ofNat.inj (Setting.whole.inj hv)
      exact ⟨_, htrim, h, hhigh⟩

theorem flag_eq_ok {b : Bool} : a.flag name = .ok b ↔
    ∃ raw, a.text name = .ok raw ∧ ValueKind.flag.Takes raw (.flag b) := by
  unfold flag
  rw [reading_eq_ok]
  refine exists_congr fun raw => and_congr_right fun _ => ⟨?_, fun h => ?_⟩
  · rintro ⟨cs, htrim, h⟩
    -- two words are flags, nothing else is
    split at h
    · rename_i hcs
      obtain rfl := Option.some.inj h
      exact .on (hcs ▸ htrim)
    · split at h
      · rename_i hcs
        obtain rfl := Option.some.inj h
        exact .off (hcs ▸ htrim)
      · exact absurd h (by simp)
  · cases h with
    | on htrim => exact ⟨_, htrim, rfl⟩
    | off htrim => exact ⟨_, htrim, rfl⟩

theorem number_eq_ok {x : Single} : a.number name = .ok x ↔
    ∃ raw, a.text name = .ok raw ∧ ValueKind.number.Takes raw (.number x) := by
  unfold number
  rw [reading_eq_ok]
  refine exists_congr fun raw => and_congr_right fun _ => ?_
  simp only [Binary.read?_eq_some (f := .single) (by decide)]
  constructor
  · rintro ⟨cs, htrim, h⟩
    exact .number htrim h
  · intro h
    cases h with
    | number htrim h => exact ⟨_, htrim, h⟩

theorem positive_eq_ok {x : Single} : a.positive name = .ok x ↔
    ∃ raw, a.text name = .ok raw ∧ ValueKind.positive.Takes raw (.number x) := by
  unfold positive
  rw [except_bind_eq_ok]
  constructor
  · rintro ⟨y, hy, h⟩
    -- infinities and numbers that are not positive are left out by one test
    split at h
    · rename_i hpos
      obtain rfl := Except.ok.inj h
      obtain ⟨raw, hraw, htakes⟩ := number_eq_ok.mp hy
      obtain ⟨q, hq, hpos⟩ := Binary.isFinite_and_isPositive.mp hpos
      exact ⟨raw, hraw, .positive htakes hq hpos⟩
    · exact absurd h (by simp [throw, throwThe, MonadExceptOf.throw])
  · rintro ⟨raw, hraw, h⟩
    cases h with
    | positive h hvalue hpos =>
      refine ⟨x, number_eq_ok.mpr ⟨raw, hraw, h⟩, ?_⟩
      rw [if_pos (Binary.isFinite_and_isPositive.mpr ⟨_, hvalue, hpos⟩)]
      rfl

/-- For a pace the reciprocal of the positive number is kept. -/
theorem pace_eq_ok {y : Single} : (∃ x, a.positive name = .ok x ∧ x.reciprocal = y) ↔
    ∃ raw, a.text name = .ok raw ∧ ValueKind.pace.Takes raw (.number y) := by
  simp only [positive_eq_ok]
  constructor
  · rintro ⟨x, ⟨raw, hraw, h⟩, rfl⟩
    refine ⟨raw, hraw, ?_⟩
    cases h with
    | positive h hvalue hpos =>
      have hy := Binary.rounds_reciprocal (by decide) hvalue hpos
      exact .pace (.positive h hvalue hpos) hvalue hy
  · rintro ⟨raw, hraw, h⟩
    cases h with
    | pace h hvalue hy =>
      have hpositive := h
      cases h with
      | positive h hvalue' hpos =>
        -- the number is told by its value, and rounding gives one result
        obtain rfl := Option.some.inj (hvalue.symm.trans hvalue')
        refine ⟨_, ⟨raw, hraw, hpositive⟩, ?_⟩
        exact (Binary.rounds_reciprocal (by decide) hvalue hpos).unique hy

/-- What is kept of a value that is read in some way. -/
theorem map_eq_ok {m : Except PipelineError α} {keep : α → Setting}
    (h : ∀ x, m = .ok x ↔ ∃ raw, a.text name = .ok raw ∧ kind.Takes raw (keep x))
    (hkeep : ∀ raw v, kind.Takes raw v → ∃ x, keep x = v) :
    keep <$> m = .ok v ↔ ∃ raw, a.text name = .ok raw ∧ kind.Takes raw v := by
  rw [except_map_eq_ok]
  constructor
  · rintro ⟨x, hx, rfl⟩
    exact (h x).mp hx
  · rintro ⟨raw, hraw, hv⟩
    obtain ⟨x, rfl⟩ := hkeep raw v hv
    exact ⟨x, (h x).mpr ⟨raw, hraw, hv⟩, rfl⟩

/-- **A setting is what the parameter takes of its value.** -/
theorem setting_eq_ok : a.setting kind name = .ok v ↔
    ∃ raw, a.text name = .ok raw ∧ kind.Takes raw v := by
  cases kind with
  | text =>
    rw [setting, except_map_eq_ok]
    refine exists_congr fun raw => and_congr_right fun _ => ⟨?_, fun h => ?_⟩
    · rintro rfl
      exact .text raw
    · cases h with
      | text => rfl
  | signed =>
    refine map_eq_ok (fun _ => signed_eq_ok) fun raw v h => ?_
    cases h with
    | signed => exact ⟨_, rfl⟩
  | unsigned =>
    refine map_eq_ok (fun _ => unsigned_eq_ok) fun raw v h => ?_
    cases h with
    | unsigned => exact ⟨_, rfl⟩
  | number =>
    refine map_eq_ok (fun _ => number_eq_ok) fun raw v h => ?_
    cases h with
    | number => exact ⟨_, rfl⟩
  | flag =>
    refine map_eq_ok (fun _ => flag_eq_ok) fun raw v h => ?_
    cases h with
    | on => exact ⟨true, rfl⟩
    | off => exact ⟨false, rfl⟩
  | positive =>
    refine map_eq_ok (fun _ => positive_eq_ok) fun raw v h => ?_
    cases h with
    | positive => exact ⟨_, rfl⟩
  -- read as a positive number, kept as its reciprocal
  | pace =>
    have hsetting : a.setting .pace name =
        Setting.number <$> Binary.reciprocal <$> a.positive name := by
      rw [setting, Functor.map_map]
    rw [hsetting]
    refine map_eq_ok (fun y => except_map_eq_ok.trans pace_eq_ok) fun raw v h => ?_
    cases h with
    | pace => exact ⟨_, rfl⟩

theorem setting_of_text_error (h : a.text name = .error e) : a.setting kind name = .error e := by
  cases kind with
  | text => rw [setting, h]; rfl
  | signed => rw [setting, signed, reading, h]; rfl
  | unsigned => rw [setting, unsigned, reading, h]; rfl
  | number => rw [setting, number, reading, h]; rfl
  | flag => rw [setting, flag, reading, h]; rfl
  | positive => rw [setting, positive, number, reading, h]; rfl
  | pace => rw [setting, positive, number, reading, h]; rfl

theorem positive_eq_error (htext : a.text name = .ok raw) (h : a.positive name = .error e) :
    (e = .invalidParameter a.operation name (.unreadable raw "f32") ∧ a.number name = .error e) ∨
    (e = .invalidParameter a.operation name .notPositive ∧ ∃ x, a.number name = .ok x) := by
  unfold positive at h
  -- it cannot be read, or the test after the reading fails
  rcases except_bind_eq_error.mp h with hnumber | ⟨x, hx, h⟩
  · exact .inl ⟨reading_eq_error htext hnumber, hnumber⟩
  · refine .inr ⟨?_, x, hx⟩
    split at h
    · exact absurd h (by simp [pure, Except.pure])
    · exact (Except.error.inj h).symm

/-- A number that is not taken is no number, or not positive. -/
theorem faults_of_positive (htext : a.text name = .ok raw) (h : a.positive name = .error e)
    (hbase : kind.base = .number) (htype : kind.typeName = "f32")
    (hno : ∀ v, ¬ kind.Takes raw v) :
    ∃ fault, kind.Faults raw fault ∧ e = .invalidParameter a.operation name fault := by
  rcases positive_eq_error htext h with ⟨he, hnumber⟩ | ⟨he, x, hx⟩
  · refine ⟨_, .unreadable fun v hv => ?_, htype ▸ he⟩
    rw [hbase] at hv
    have hok : a.setting .number name = .ok v := setting_eq_ok.mpr ⟨raw, htext, hv⟩
    rw [setting, hnumber] at hok
    exact absurd hok (by simp [Functor.map, Except.map])
  · obtain ⟨raw', hraw, htakes⟩ := number_eq_ok.mp hx
    obtain rfl := Except.ok.inj (htext.symm.trans hraw)
    exact ⟨_, .notPositive (hbase ▸ htakes) hno, he⟩

/-- **What is wrong with a value that is not taken.** -/
theorem faults_of_setting (htext : a.text name = .ok raw) (h : a.setting kind name = .error e) :
    ∃ fault, kind.Faults raw fault ∧ e = .invalidParameter a.operation name fault := by
  have hno : ∀ v, ¬ kind.Takes raw v := by
    intro v hv
    rw [setting_eq_ok.mpr ⟨raw, htext, hv⟩] at h
    exact absurd h (by simp)
  cases kind with
  -- any text is taken
  | text => exact absurd (.text raw) (hno _)
  | signed => exact ⟨_, .unreadable hno, reading_eq_error htext (except_map_eq_error.mp h)⟩
  | unsigned => exact ⟨_, .unreadable hno, reading_eq_error htext (except_map_eq_error.mp h)⟩
  | number => exact ⟨_, .unreadable hno, reading_eq_error htext (except_map_eq_error.mp h)⟩
  | flag => exact ⟨_, .unreadable hno, reading_eq_error htext (except_map_eq_error.mp h)⟩
  | positive => exact faults_of_positive htext (except_map_eq_error.mp h) rfl rfl hno
  | pace => exact faults_of_positive htext (except_map_eq_error.mp h) rfl rfl hno

end Arguments

/-! ## Operations by their settings -/

namespace Operation

/-- Whether it can be switched on and off over time. -/
def acceptsGate : Operation → Bool
  | filter f => f.acceptsGate
  | merge => false

/-- The name by which pipelines ask for the operation. -/
def kind : Operation → String
  | filter (.scale ..) => "scale"
  | filter (.overlay ..) => "overlay"
  | filter .overlayCenter => "overlay_center"
  | filter (.colorKey ..) => "colorkey"
  | filter (.retime ..) => "speed"
  | filter (.drawBox ..) => "drawbox"
  | filter (.boxBlur ..) => "boxblur"
  | filter (.curves ..) => "curves"
  | filter (.rotate ..) => "rotate"
  | filter (.tempo ..) => "atempo"
  | filter (.drawText ..) => "drawtext"
  | filter (.crop ..) => "crop"
  | filter (.volume ..) => "volume"
  | filter (.echo ..) => "aecho"
  | filter (.pixelFormat ..) => "format"
  | merge => "merge"

/-- What the operation keeps, with the names of the parameters. -/
def settings : Operation → List (String × Setting)
  | filter (.scale width height squarePixels) =>
    [("width", .whole width), ("height", .whole height), ("set_sar", .flag squarePixels)]
  | filter (.overlay x y) => [("x", .text x), ("y", .text y)]
  | filter .overlayCenter => []
  | filter (.colorKey color similarity) =>
    [("color", .text color), ("similarity", .number similarity)]
  | filter (.retime factor) => [("speed", .number factor)]
  | filter (.drawBox x y width height color thickness) =>
    [("x", .whole x), ("y", .whole y), ("width", .whole width), ("height", .whole height),
      ("color", .text color), ("thickness", .text thickness)]
  | filter (.boxBlur lumaRadius chromaRadius lumaPower) =>
    [("luma_radius", .text lumaRadius), ("chroma_radius", .text chromaRadius),
      ("luma_power", .whole lumaPower)]
  | filter (.curves preset) => [("preset", .text preset)]
  | filter (.rotate angle) => [("angle", .text angle)]
  | filter (.tempo speed) => [("speed", .number speed)]
  | filter (.drawText text x y fontColor fontSize) =>
    [("text", .text text), ("x", .text x), ("y", .text y), ("font_color", .text fontColor),
      ("font_size", .whole fontSize)]
  | filter (.crop width height x y) =>
    [("width", .text width), ("height", .text height), ("x", .text x), ("y", .text y)]
  | filter (.volume level) => [("level", .number level)]
  | filter (.echo inGain outGain delays decays) =>
    [("in_gain", .number inGain), ("out_gain", .number outGain), ("delays", .text delays),
      ("decays", .text decays)]
  | filter (.pixelFormat format) => [("pix_fmt", .text format)]
  | merge => []

end Operation

namespace Catalogue

/-- The parameters that do not take any text. -/
def typed : List (String × String × ValueKind) := [
  ("scale", "width", .signed), ("scale", "height", .signed), ("scale", "set_sar", .flag),
  ("colorkey", "similarity", .number),
  ("speed", "speed", .pace),
  ("drawbox", "x", .signed), ("drawbox", "y", .signed),
  ("drawbox", "width", .signed), ("drawbox", "height", .signed),
  ("boxblur", "luma_power", .unsigned),
  ("drawtext", "font_size", .unsigned),
  ("atempo", "speed", .positive),
  ("volume", "level", .number),
  ("aecho", "in_gain", .number), ("aecho", "out_gain", .number)]

/-- What a parameter of an operation takes. -/
def kindOf (id name : String) : ValueKind :=
  ((typed.find? fun t => t.1 = id ∧ t.2.1 = name).map (·.2.2)).getD .text

end Catalogue

open Catalogue

variable {entry : Entry} {p : Parameter} {values : Dict String} {e : PipelineError}
  {op : Operation} {kind : ValueKind} {v : Setting} {id key : String}

/-- The value of a parameter, given or by default. -/
def Parameter.value? (p : Parameter) (values : Dict String) : Option String :=
  (values.get? p.name).or p.default?

/-- The parameter has a value that it takes. -/
def Parameter.Holds (p : Parameter) (values : Dict String) (kind : ValueKind) (v : Setting) :
    Prop :=
  ∃ raw, p.value? values = some raw ∧ kind.Takes raw v

/-- What is wrong with a parameter. -/
inductive Parameter.Fails (p : Parameter) (values : Dict String) (kind : ValueKind) :
    ParameterFault → Prop where
  | missing (h : p.value? values = none) : Fails p values kind .missing
  | value {raw : String} {fault : ParameterFault} (h : p.value? values = some raw)
    (hfault : kind.Faults raw fault) : Fails p values kind fault

namespace Entry

/-- The values given for an entry. -/
def arguments (entry : Entry) (values : Dict String) : Arguments :=
  ⟨entry.id, entry.parameters, values⟩

/-- The values can be used: the keys are names of parameters, what has no default is given, and
every parameter takes its value. -/
structure Accepts (entry : Entry) (values : Dict String) : Prop where
  known : ∀ key ∈ values.keys, ∃ p ∈ entry.parameters, p.name = key
  given : ∀ p ∈ entry.parameters, p.default? = none → p.name ∈ values.keys
  valid : ∀ p ∈ entry.parameters, ∀ raw, p.value? values = some raw →
    ∃ v, (kindOf entry.id p.name).Takes raw v

/-- The operation is the one that the values ask for. -/
structure Makes (entry : Entry) (values : Dict String) (op : Operation) : Prop where
  kind : op.kind = entry.id
  acceptsGate : op.acceptsGate = entry.acceptsGate
  settings : List.Forall₂ (fun p s => s.1 = p.name ∧
    p.Holds values (kindOf entry.id p.name) s.2) entry.parameters op.settings

end Entry

/-- Why nothing is made: the kind is not known, or of the keys that are not known this is the
least, or all keys are known and this is the first parameter with something wrong. -/
inductive Catalogue.Refuses (id : String) (values : Dict String) : PipelineError → Prop where
  | unknownKind (h : ∀ entry ∈ entries, entry.id ≠ id) : Refuses id values (.unknownFilter id)
  | unknownKey {entry : Entry} {key : String} (hentry : entry ∈ entries) (hid : entry.id = id)
    (hkey : key ∈ values.keys) (hstray : ∀ p ∈ entry.parameters, p.name ≠ key)
    (hleast : ∀ k ∈ values.keys, (∀ p ∈ entry.parameters, p.name ≠ k) → key ≤ k) :
    Refuses id values (.invalidParameter id key .unknown)
  | parameter {entry : Entry} {front back : List Parameter} {p : Parameter}
    {fault : ParameterFault} (hentry : entry ∈ entries) (hid : entry.id = id)
    (hknown : ∀ key ∈ values.keys, ∃ p ∈ entry.parameters, p.name = key)
    (hsplit : entry.parameters = front ++ p :: back)
    (hfront : ∀ p ∈ front, ∃ v, p.Holds values (kindOf id p.name) v)
    (hp : p.Fails values (kindOf id p.name) fault) :
    Refuses id values (.invalidParameter id p.name fault)

/-! ## The two descriptions agree -/

theorem Dict.get?_eq_none {α : Type} {d : Dict α} : d.get? key = none ↔ key ∉ d.keys := by
  unfold Dict.get? Dict.keys
  induction d.entries with
  | nil => simp [lookupEntry]
  | cons head rest ih =>
    rw [lookupEntry, List.map_cons, List.mem_cons, not_or, ← ih]
    by_cases hkey : head.1 = key
    · simp [hkey]
    · simp [hkey, Ne.symm hkey]

namespace Catalogue

theorem nodup_ids : (entries.map (·.id)).Nodup := by decide

theorem nodup_names : ∀ entry ∈ entries, (entry.parameters.map (·.name)).Nodup := by decide

theorem find?_eq_some : find? id = some entry ↔ entry ∈ entries ∧ entry.id = id :=
  find?_key_iff nodup_ids

theorem find?_eq_none (h : find? id = none) : ∀ entry ∈ entries, entry.id ≠ id := by
  intro entry hentry hid
  rw [find?_eq_some.mpr ⟨hentry, hid⟩] at h
  exact absurd h (by simp)

theorem strayKey?_eq_none {parameters : List Parameter} {keys : List String} :
    strayKey? parameters keys = none ↔ ∀ key ∈ keys, ∃ p ∈ parameters, p.name = key := by
  simp [strayKey?]

/-- The stray key that is found is the least one. -/
theorem strayKey?_eq_some {parameters : List Parameter}
    (h : strayKey? parameters values.keys = some key) :
    key ∈ values.keys ∧ (∀ p ∈ parameters, p.name ≠ key) ∧
      ∀ k ∈ values.keys, (∀ p ∈ parameters, p.name ≠ k) → key ≤ k := by
  obtain ⟨hstray, front, back, hkeys, hfront⟩ := List.find?_eq_some_iff_append.mp h
  -- keys are kept in order, so the first stray one is the least
  have hrise : values.keys.Pairwise (· < ·) := List.pairwise_map.mpr values.keysRise
  rw [hkeys] at hrise ⊢
  refine ⟨by simp, by simpa using hstray, fun k hk hkstray => ?_⟩
  rcases List.mem_append.mp hk with hk | hk
  · -- the keys in front are names of parameters
    obtain ⟨p, hp, hname⟩ : ∃ p ∈ parameters, p.name = k := by simpa using hfront k hk
    exact absurd hname (hkstray p hp)
  · rcases List.mem_cons.mp hk with rfl | hk
    · exact String.le_refl k
    · have hlt := (List.pairwise_cons.mp (List.pairwise_append.mp hrise).2.1).1 k hk
      exact fun hgt => String.lt_asymm hlt hgt

/-- **Making an operation is to take the settings of its parameters in order**, for every kind. -/
theorem make_eq (hentry : entry ∈ entries) (a : Arguments) :
    (fun op => (op.kind, op.acceptsGate, op.settings)) <$> entry.make a =
      (fun vs => (entry.id, entry.acceptsGate, vs)) <$> entry.parameters.mapM fun p =>
        (fun v => (p.name, v)) <$> a.setting (kindOf entry.id p.name) p.name := by
  have hpure : ∀ op, (.ok op : Except PipelineError Operation) = pure op := fun _ => rfl
  simp only [entries, List.mem_cons, List.not_mem_nil, or_false] at hentry
  -- the two descriptions are computed, entry by entry, and compared
  rcases hentry with rfl | rfl | rfl | rfl | rfl | rfl | rfl | rfl | rfl | rfl | rfl | rfl | rfl |
    rfl | rfl | rfl
  all_goals simp [scale, colorKey, speed, drawBox, boxBlur, curves, rotate, drawText, crop,
    pixelFormat, tempo, volume, echo, overlay, overlayCenter, merge, required, Catalogue.optional,
    kindOf, typed, Arguments.setting, Operation.kind, Operation.acceptsGate, Operation.settings,
    Filter.acceptsGate, Filter.atSpeed, hpure]

/-- The text that is read for a parameter. -/
theorem text_eq (hentry : entry ∈ entries) (hp : p ∈ entry.parameters) (values : Dict String) :
    (entry.arguments values).text p.name =
      (p.value? values).elim (.error (.invalidParameter entry.id p.name .missing)) .ok := by
  have hfind := (find?_key_iff (nodup_names entry hentry)).mpr ⟨hp, rfl⟩
  unfold Arguments.text Entry.arguments Parameter.value?
  dsimp only
  rw [hfind, Option.bind_some]
  -- what is given comes first, then the default
  cases values.get? p.name with
  | some raw => rfl
  | none =>
    rw [Option.none_or]
    cases p.default? with
    | some raw => rfl
    | none => rfl

/-- A parameter has a setting just if it holds a value that it takes. -/
theorem setting_eq_ok (hentry : entry ∈ entries) (hp : p ∈ entry.parameters) :
    (entry.arguments values).setting kind p.name = .ok v ↔ p.Holds values kind v := by
  rw [Arguments.setting_eq_ok, text_eq hentry hp values]
  unfold Parameter.Holds
  cases p.value? values with
  | some raw => simp
  | none => simp

/-- A parameter without a setting fails, for a reason that the message names. -/
theorem setting_eq_error (hentry : entry ∈ entries) (hp : p ∈ entry.parameters)
    (h : (entry.arguments values).setting kind p.name = .error e) :
    ∃ fault, p.Fails values kind fault ∧ e = .invalidParameter entry.id p.name fault := by
  have htext := text_eq hentry hp values
  cases hvalue : p.value? values with
  | some raw =>
    rw [hvalue] at htext
    obtain ⟨fault, hfault, he⟩ := Arguments.faults_of_setting htext h
    exact ⟨fault, .value hvalue hfault, he⟩
  | none =>
    rw [hvalue] at htext
    rw [Arguments.setting_of_text_error htext] at h
    exact ⟨.missing, .missing hvalue, (Except.error.inj h).symm⟩

/-- What is made has the settings of the parameters. -/
theorem makes_of_make (hentry : entry ∈ entries)
    (h : entry.make (entry.arguments values) = .ok op) : entry.Makes values op := by
  have hview := make_eq hentry (entry.arguments values)
  rw [h] at hview
  obtain ⟨vs, hvs, heq⟩ := except_map_eq_ok.mp hview.symm
  simp only [Prod.mk.injEq] at heq
  obtain ⟨hid, hgate, rfl⟩ := heq
  refine ⟨hid.symm, hgate.symm, ?_⟩
  refine forall₂_imp_of_mem (mapM_eq_ok.mp hvs) fun p hp s hs => ?_
  obtain ⟨v, hv, rfl⟩ := except_map_eq_ok.mp hs
  exact ⟨rfl, (setting_eq_ok hentry hp).mp hv⟩

/-- Something is made if every parameter holds a value. -/
theorem exists_make (hentry : entry ∈ entries)
    (h : ∀ p ∈ entry.parameters, ∃ v, p.Holds values (kindOf entry.id p.name) v) :
    ∃ op, entry.make (entry.arguments values) = .ok op := by
  obtain ⟨vs, hvs⟩ := exists_forall₂ (l := entry.parameters)
    (R := fun p s => (fun v => (p.name, v)) <$>
      (entry.arguments values).setting (kindOf entry.id p.name) p.name = .ok s) fun p hp => by
    obtain ⟨v, hv⟩ := h p hp
    exact ⟨_, except_map_eq_ok.mpr ⟨v, (setting_eq_ok hentry hp).mpr hv, rfl⟩⟩
  have hview := make_eq hentry (entry.arguments values)
  rw [mapM_eq_ok.mpr hvs] at hview
  obtain ⟨op, hop, -⟩ := except_map_eq_ok.mp hview
  exact ⟨op, hop⟩

/-- What is not made fails at the first parameter with something wrong. -/
theorem fails_of_make (hentry : entry ∈ entries)
    (h : entry.make (entry.arguments values) = .error e) :
    ∃ front p back fault, entry.parameters = front ++ p :: back ∧
      (∀ p ∈ front, ∃ v, p.Holds values (kindOf entry.id p.name) v) ∧
      p.Fails values (kindOf entry.id p.name) fault ∧
      e = .invalidParameter entry.id p.name fault := by
  have hview := make_eq hentry (entry.arguments values)
  rw [h] at hview
  obtain ⟨front, p, back, hsplit, hfront, hp⟩ :=
    exists_of_mapM_eq_error (except_map_eq_error.mp hview.symm)
  have hmem : ∀ x ∈ front ++ p :: back, x ∈ entry.parameters := fun x hx => hsplit ▸ hx
  obtain ⟨fault, hfault, he⟩ :=
    setting_eq_error hentry (hmem p (by simp)) (except_map_eq_error.mp hp)
  refine ⟨front, p, back, fault, hsplit, fun x hx => ?_, hfault, he⟩
  obtain ⟨s, hs⟩ := hfront x hx
  obtain ⟨v, hv, -⟩ := except_map_eq_ok.mp hs
  exact ⟨v, (setting_eq_ok hentry (hmem x (by simp [hx]))).mp hv⟩

theorem create_of_known (hentry : entry ∈ entries)
    (h : ∀ key ∈ values.keys, ∃ p ∈ entry.parameters, p.name = key) :
    create entry.id values = entry.make (entry.arguments values) := by
  rw [create, find?_eq_some.mpr ⟨hentry, rfl⟩]
  dsimp only
  rw [strayKey?_eq_none.mpr h]
  rfl

/-- What answers: the lack of an entry, a stray key, or the entry. -/
theorem create_cases (id : String) (values : Dict String) :
    ((∀ entry ∈ entries, entry.id ≠ id) ∧ create id values = .error (.unknownFilter id)) ∨
    ∃ entry ∈ entries, entry.id = id ∧
      ((∃ key, strayKey? entry.parameters values.keys = some key ∧
          create id values = .error (.invalidParameter id key .unknown)) ∨
        (∀ key ∈ values.keys, ∃ p ∈ entry.parameters, p.name = key) ∧
          create id values = entry.make (entry.arguments values)) := by
  cases hfind : find? id with
  | none => exact .inl ⟨find?_eq_none hfind, by rw [create, hfind]⟩
  | some entry =>
    obtain ⟨hentry, rfl⟩ := find?_eq_some.mp hfind
    refine .inr ⟨entry, hentry, rfl, ?_⟩
    -- keys are looked at before any parameter is
    cases hstray : strayKey? entry.parameters values.keys with
    | some key =>
      refine .inl ⟨key, rfl, ?_⟩
      rw [create, hfind]
      dsimp only
      rw [hstray]
    | none =>
      have hknown := strayKey?_eq_none.mp hstray
      exact .inr ⟨hknown, create_of_known hentry hknown⟩

/-- Whatever is made, is made by the entry of that name, and all keys are known. -/
theorem make_of_create (h : create id values = .ok op) : ∃ entry ∈ entries, entry.id = id ∧
    (∀ key ∈ values.keys, ∃ p ∈ entry.parameters, p.name = key) ∧
    entry.make (entry.arguments values) = .ok op := by
  rcases create_cases id values with ⟨-, hc⟩ | ⟨entry, hentry, hid, ⟨key, -, hc⟩ | ⟨hknown, hc⟩⟩
  · rw [hc] at h
    exact absurd h (by simp)
  · rw [hc] at h
    exact absurd h (by simp)
  · exact ⟨entry, hentry, hid, hknown, hc.symm.trans h⟩

/-- **Every refusal has its reason.** -/
theorem refuses_of_create (h : create id values = .error e) : Refuses id values e := by
  rcases create_cases id values with
    ⟨hno, hc⟩ | ⟨entry, hentry, rfl, ⟨key, hstray, hc⟩ | ⟨hknown, hc⟩⟩
  · obtain rfl := Except.error.inj (hc.symm.trans h)
    exact .unknownKind hno
  · obtain rfl := Except.error.inj (hc.symm.trans h)
    obtain ⟨hkey, hname, hleast⟩ := strayKey?_eq_some hstray
    exact .unknownKey hentry rfl hkey hname hleast
  · obtain ⟨front, p, back, fault, hsplit, hfront, hp, rfl⟩ :=
      fails_of_make hentry (hc.symm.trans h)
    exact .parameter hentry rfl hknown hsplit hfront hp

end Catalogue

/-- Values that can be used give every parameter something to hold. -/
theorem Entry.Accepts.holds (h : entry.Accepts values) (hp : p ∈ entry.parameters) :
    ∃ v, p.Holds values (kindOf entry.id p.name) v := by
  cases hvalue : p.value? values with
  | some raw =>
    obtain ⟨v, hv⟩ := h.valid p hp raw hvalue
    exact ⟨v, raw, hvalue, hv⟩
  | none =>
    obtain ⟨hget, hdefault⟩ := Option.or_eq_none_iff.mp hvalue
    exact absurd (h.given p hp hdefault) (Dict.get?_eq_none.mp hget)

theorem Entry.accepts_of_holds (hknown : ∀ key ∈ values.keys, ∃ p ∈ entry.parameters, p.name = key)
    (h : ∀ p ∈ entry.parameters, ∃ v, p.Holds values (kindOf entry.id p.name) v) :
    entry.Accepts values where
  known := hknown
  given p hp hdefault := by
    obtain ⟨v, raw, hvalue, -⟩ := h p hp
    -- neither given nor by default, it would hold nothing
    by_contra hkey
    rw [Parameter.value?, Dict.get?_eq_none.mpr hkey, hdefault] at hvalue
    exact absurd hvalue (by simp)
  valid p hp raw hraw := by
    obtain ⟨v, raw', hvalue, hv⟩ := h p hp
    obtain rfl := Option.some.inj (hraw.symm.trans hvalue)
    exact ⟨v, hv⟩

/-- **Every default is taken by its parameter.** -/
theorem default_taken (hentry : entry ∈ entries) (hp : p ∈ entry.parameters) {raw : String}
    (h : p.default? = some raw) : ∃ v, (kindOf entry.id p.name).Takes raw v := by
  -- with no values given, every setting comes from a default
  have hchecked : ∀ entry ∈ entries, ∀ p ∈ entry.parameters, p.default?.isSome = true →
      ((entry.arguments .empty).setting (kindOf entry.id p.name) p.name).isOk = true := by
    decide +kernel
  have hvalue : p.value? .empty = some raw := h
  have hok := hchecked entry hentry p hp (by rw [h]; rfl)
  cases hsetting : (entry.arguments .empty).setting (kindOf entry.id p.name) p.name with
  | error e =>
    rw [hsetting] at hok
    exact absurd hok (by simp [Except.isOk, Except.toBool])
  | ok v =>
    obtain ⟨raw', hraw', htakes⟩ := (setting_eq_ok hentry hp).mp hsetting
    obtain rfl := Option.some.inj (hvalue.symm.trans hraw')
    exact ⟨v, htakes⟩

/-- **Parameters and operations agree.** An operation is made of a name and of values if and only if
the catalogue has the name, every key is the name of a parameter, whatever has no default is
given, and every parameter takes its value. It is then the operation of that name, each of its
settings is what the parameter of the setting's name keeps of its value, and it can be switched
over time if the catalogue says so. What is refused is refused because of the name, or of the
least key that is not known, or of the first parameter that is missing or does not take its
value. -/
theorem create_outcome (id : String) (values : Dict String) :
    ((∃ op, create id values = .ok op) ↔ ∃ entry ∈ entries, entry.id = id ∧ entry.Accepts values) ∧
    (∀ op, create id values = .ok op → ∃ entry ∈ entries, entry.id = id ∧ entry.Makes values op) ∧
    (∀ e, create id values = .error e → Refuses id values e) := by
  refine ⟨⟨?_, ?_⟩, fun op h => ?_, fun e h => refuses_of_create h⟩
  · rintro ⟨op, h⟩
    obtain ⟨entry, hentry, hid, hknown, hmake⟩ := make_of_create h
    refine ⟨entry, hentry, hid, Entry.accepts_of_holds hknown fun p hp => ?_⟩
    obtain ⟨s, -, -, hs⟩ := forall₂_exists_right (makes_of_make hentry hmake).settings hp
    exact ⟨s.2, hs⟩
  · rintro ⟨entry, hentry, rfl, h⟩
    rw [create_of_known hentry h.known]
    exact exists_make hentry fun p hp => h.holds hp
  · obtain ⟨entry, hentry, hid, -, hmake⟩ := make_of_create h
    exact ⟨entry, hentry, hid, makes_of_make hentry hmake⟩

end Filtergraph
