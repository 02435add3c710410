import Lookahead.Settings.Basic
import Lookahead.Proofs.Settings.Merging

/-!
Layers of settings. Whatever the order in which files and keys are given, each setting has the value
of the last key for it, else that of the last file with one, else the one that is built in.
-/

namespace Lookahead.Settings

/-- The settings, each of which is a key of a table in the outermost table. -/
inductive Leaf where
  | language
  | counting
  | format
  | showTokens
deriving DecidableEq

namespace Leaf

def outer : Leaf → String
  | language | counting => "analysis"
  | format | showTokens => "output"

def inner : Leaf → String
  | language => "language"
  | counting => "line_counting"
  | format => "format"
  | showTokens => "show_tokens"

def path (k : Leaf) : String := k.outer ++ "." ++ k.inner

theorem path?_path (k : Leaf) : path? k.path = some [k.outer, k.inner] := by
  cases k <;> decide +kernel

theorem lower_outer (k : Leaf) : lower k.outer = k.outer := by
  cases k <;> decide +kernel

theorem lower_inner (k : Leaf) : lower k.inner = k.inner := by
  cases k <;> decide +kernel

theorem eq_of_outer_of_inner {k l : Leaf} (ho : k.outer = l.outer) (hi : k.inner = l.inner) :
    k = l := by
  cases k <;> cases l <;> first | rfl | simp [outer, inner] at ho hi

theorem path_eq_path_iff {k l : Leaf} : k.path = l.path ↔ k = l := by
  constructor
  · intro h
    have hpaths := (path?_path k).symm.trans (h ▸ path?_path l)
    simp only [Option.some.injEq, List.cons.injEq, and_true] at hpaths
    exact eq_of_outer_of_inner hpaths.1 hpaths.2
  · exact congrArg path

end Leaf

/-! ### Values of settings in a tree -/

namespace Value

def at? (root : Value) (k : Leaf) : Option Value := (root.get? k.outer).bind (·.get? k.inner)

theorem at?_putAt (root : Value) (k : Leaf) {v : Value} (hv : v.isTable = false) (l : Leaf) :
    (root.putAt [k.outer, k.inner] v).at? l = if l = k then some v else root.at? l := by
  have hput : (root.putAt [k.outer, k.inner] v).get? l.outer =
      if l.outer = k.outer then some (put ((root.get? l.outer).getD (table [])) k.inner v)
      else root.get? l.outer := by
    simp only [putAt, get?, entries, lookup_insert, k.lower_outer]
    split
    · next h => rw [h]
    · rfl
  rw [at?, hput]
  by_cases ho : l.outer = k.outer
  · rw [if_pos ho, Option.bind_some, get?_put, k.lower_inner]
    by_cases hi : l.inner = k.inner
    · rw [if_pos hi, if_pos (Leaf.eq_of_outer_of_inner ho hi), covered_of_isTable_eq_false _ hv]
    · rw [if_neg hi, if_neg fun h ↦ hi (congrArg Leaf.inner h), at?]
      cases root.get? l.outer <;> rfl
  · rw [if_neg ho, if_neg fun h ↦ ho (congrArg Leaf.outer h), at?]

end Value

theorem ofValue?_eq_some_iff {v : Value} {s : Settings} :
    ofValue? v = some s ↔
      (v.at? .language).bind (choice? Language) = some s.language ∧
      (v.at? .counting).bind (choice? LineCounting) = some s.counting ∧
      (v.at? .format).bind (choice? OutputFormat) = some s.format ∧
      (v.at? .showTokens).bind flag? = some s.showTokens := by
  obtain ⟨l, c, f, t⟩ := s
  simp only [ofValue?, Value.at?, Leaf.outer, Leaf.inner]
  cases v.get? "analysis" with
  | none => simp
  | some analysis =>
    cases v.get? "output" with
    | none => simp
    | some output =>
      simp only [Option.bind_some, Option.bind_eq_bind]
      cases (analysis.get? "language").bind (choice? Language) <;>
      cases (analysis.get? "line_counting").bind (choice? LineCounting) <;>
      cases (output.get? "format").bind (choice? OutputFormat) <;>
      cases (output.get? "show_tokens").bind flag? <;> simp

theorem ofValue?_congr {v w : Value} (h : ∀ k, v.at? k = w.at? k) : ofValue? v = ofValue? w := by
  apply Option.ext
  intro s
  rw [ofValue?_eq_some_iff, ofValue?_eq_some_iff, h, h, h, h]

/-! ### What layers say -/

/-- What a file may hold: keys without quotation marks, no two of which differ only in case, the
settings in tables, and no tables in the place of settings. -/
structure Tidy (file : List (String × Value)) : Prop where
  bare : ∀ e ∈ file, ∀ c ∈ e.1.toList, Toml.isBareKeyChar c
  apart : Apart file
  inTable : ∀ (k : Leaf), ∀ v ∈ given? file k.outer,
    v.isTable = true ∧ Apart v.entries ∧ ∀ w ∈ given? v.entries k.inner, w.isTable = false

namespace Layer

/-- A layer that can be read: a file that is there and tidy, one that need not be there, or a value for
a setting, valid or not, that is no table. -/
inductive Regular : Layer → Prop
  | read (required : Bool) {text : String} {file : List (String × Value)}
      (hread : Toml.read? (unmarked text) = some file) (htidy : Tidy file) :
      Regular (.file required (some text))
  | absent : Regular (.file false none)
  | key (k : Leaf) {v : Value} (hv : v.isTable = false) : Regular (.key k.path v)

def isKey : Layer → Bool
  | .key .. => true
  | .file .. => false

def entries : Layer → List (String × Value)
  | .file _ (some text) => (Toml.read? (unmarked text)).getD []
  | _ => []

/-- The value that a layer gives a setting, be it a valid one or not. -/
def value? (k : Leaf) : Layer → Option Value
  | .key path v => if path = k.path then some v else none
  | .file required text =>
    (given? (entries (.file required text)) k.outer).bind (given? ·.entries k.inner)

end Layer

/-- The value that the last of some layers with a value for a setting gives it. -/
def last? (layers : List Layer) (k : Leaf) : Option Value :=
  (layers.filterMap (Layer.value? k)).getLast?

def keysOf (layers : List Layer) : List Layer := layers.filter Layer.isKey

def filesOf (layers : List Layer) : List Layer := layers.filter fun l ↦ !l.isKey

/-- The value that a setting has in the end. -/
def effective? (layers : List Layer) (k : Leaf) : Option Value :=
  (last? (keysOf layers) k).or ((last? (filesOf layers) k).or (defaults.at? k))

theorem last?_append (as bs : List Layer) (k : Leaf) :
    last? (as ++ bs) k = (last? bs k).or (last? as k) := by
  simp [last?, List.filterMap_append, List.getLast?_append]

theorem last?_cons (l : Layer) (layers : List Layer) (k : Leaf) :
    last? (l :: layers) k = (last? layers k).or (l.value? k) := by
  have hone : last? [l] k = l.value? k := by
    cases h : l.value? k <;> simp [last?, h]
  rw [← hone, ← last?_append, List.singleton_append]

theorem isSome_last? {layers : List Layer} {k : Leaf} {l : Layer} (hl : l ∈ layers)
    (h : (l.value? k).isSome) : (last? layers k).isSome := by
  obtain ⟨as, bs, rfl⟩ := List.append_of_mem hl
  rw [last?_append, last?_cons]
  simp [h]

/-! ### Merging layers -/

/-- The tree that comes of layers, before it is looked at for settings. -/
def merged (layers : List Layer) : Except ConfigError Value := do
  let keys ← (layers.filterMap Layer.key?).mapM id
  let files ← (layers.filterMap Layer.file?).mapM id
  return keys.foldl (fun v k => v.putAt k.1 k.2) (files.foldl Value.overlay defaults)

theorem build_eq_of_merged {layers : List Layer} {v : Value} (h : merged layers = .ok v) :
    build layers = match ofValue? v with
      | some s => .ok s
      | none => .error .invalid := by
  have hbuild : build layers = merged layers >>= fun v ↦
      match ofValue? v with
      | some s => return s
      | none => throw .invalid := by
    simp only [build, merged, bind_assoc]
    rfl
  rw [hbuild, h]
  rfl

theorem Tidy.at?_overlay {file : List (String × Value)} (h : Tidy file) (root : Value) (k : Leaf) :
    (root.overlay file).at? k =
      ((given? file k.outer).bind (given? ·.entries k.inner)).or (root.at? k) := by
  have hbare : ∀ e ∈ file, ∀ c ∈ e.1.toList, c ≠ '.' := by
    rintro e he c hc rfl
    exact absurd (h.bare e he _ hc) (by decide)
  rw [Value.at?, Value.overlay_eq_putAll hbare, Value.get?_putAll h.apart]
  cases hv : given? file k.outer with
  | none => rfl
  | some v =>
    obtain ⟨htable, hinner, hleaf⟩ := h.inTable k v hv
    obtain ⟨inner, rfl⟩ := Value.exists_eq_table htable
    change Apart inner at hinner
    have hroot : ((root.get? k.outer).getD (.table [])).get? k.inner = root.at? k := by
      rw [Value.at?]
      cases root.get? k.outer <;> rfl
    simp only [Option.map_some, Option.some_or, Option.bind_some, Value.covered, Value.entries,
      Value.get?_putAll hinner, hroot]
    cases hw : given? inner k.inner with
    | none => rfl
    | some w => simp [Value.covered_of_isTable_eq_false _ (hleaf w hw)]

theorem exists_files {layers : List Layer} (h : ∀ l ∈ layers, l.Regular) :
    ∃ files, (layers.filterMap Layer.file?).mapM id = .ok files ∧ ∀ root k,
      (files.foldl Value.overlay root).at? k = (last? (filesOf layers) k).or (root.at? k) := by
  induction layers with
  | nil => exact ⟨[], rfl, fun root k ↦ by simp [last?, filesOf]⟩
  | cons l layers ih =>
    obtain ⟨files, hfiles, hroot⟩ := ih fun l hl ↦ h l (List.mem_cons_of_mem _ hl)
    have hfile (required : Bool) (text : Option String) (file : List (String × Value))
        (hl : l = .file required text) (hread : readFile required text = .ok file)
        (hvalue : ∀ root k, (Value.overlay root file).at? k = (l.value? k).or (root.at? k)) :
        ∃ files, ((l :: layers).filterMap Layer.file?).mapM id = .ok files ∧ ∀ root k,
          (files.foldl Value.overlay root).at? k =
            (last? (filesOf (l :: layers)) k).or (root.at? k) := by
      refine ⟨file :: files, ?_, fun root k ↦ ?_⟩
      · have hl? : Layer.file? l = some (.ok file) := by rw [hl, Layer.file?, hread]
        rw [List.filterMap_cons_some hl?, List.mapM_cons, hfiles]
        rfl
      · have hkey : filesOf (l :: layers) = l :: filesOf layers := by
          rw [hl]
          rfl
        rw [List.foldl_cons, hroot, hvalue, hkey, last?_cons, Option.or_assoc]
    cases h l List.mem_cons_self with
    | @read required text file hread htidy =>
      have hentries : Layer.entries (.file required (some text)) = file := by
        simp [Layer.entries, hread]
      refine hfile required (some text) file rfl (by simp [readFile, hread]) fun root k ↦ ?_
      rw [htidy.at?_overlay, Layer.value?, hentries]
    | absent => exact hfile false none [] rfl rfl fun root k ↦ rfl
    | key k hv => exact ⟨files, hfiles, hroot⟩

theorem exists_keys {layers : List Layer} (h : ∀ l ∈ layers, l.Regular) :
    ∃ keys, (layers.filterMap Layer.key?).mapM id = .ok keys ∧ ∀ (root : Value) k,
      (keys.foldl (fun (v : Value) k ↦ v.putAt k.1 k.2) root).at? k =
        (last? (keysOf layers) k).or (root.at? k) := by
  induction layers with
  | nil => exact ⟨[], rfl, fun root k ↦ by simp [last?, keysOf]⟩
  | cons l layers ih =>
    obtain ⟨keys, hkeys, hroot⟩ := ih fun l hl ↦ h l (List.mem_cons_of_mem _ hl)
    cases h l List.mem_cons_self with
    | read | absent => exact ⟨keys, hkeys, hroot⟩
    | @key k v hv =>
      refine ⟨([k.outer, k.inner], v) :: keys, ?_, fun root j ↦ ?_⟩
      · have hl? : Layer.key? (.key k.path v) = some (.ok ([k.outer, k.inner], v)) := by
          simp [Layer.key?, readKey, k.path?_path]
        rw [List.filterMap_cons_some hl?, List.mapM_cons, hkeys]
        rfl
      · have hkey : keysOf (.key k.path v :: layers) = .key k.path v :: keysOf layers := rfl
        rw [List.foldl_cons, hroot, Value.at?_putAt root k hv, hkey, last?_cons, Option.or_assoc,
          Layer.value?]
        simp only [Leaf.path_eq_path_iff, eq_comm (a := k)]
        split <;> rfl

theorem exists_merged {layers : List Layer} (h : ∀ l ∈ layers, l.Regular) :
    ∃ v, merged layers = .ok v ∧ ∀ k, v.at? k = effective? layers k := by
  obtain ⟨keys, hkeys, hkeysAt⟩ := exists_keys h
  obtain ⟨files, hfiles, hfilesAt⟩ := exists_files h
  refine ⟨_, by rw [merged, hkeys, hfiles]; rfl, fun k ↦ ?_⟩
  rw [hkeysAt, hfilesAt, effective?]

theorem build_congr {as bs : List Layer} (ha : ∀ l ∈ as, l.Regular) (hb : ∀ l ∈ bs, l.Regular)
    (h : ∀ k, effective? as k = effective? bs k) : build as = build bs := by
  obtain ⟨v, hv, hvAt⟩ := exists_merged ha
  obtain ⟨w, hw, hwAt⟩ := exists_merged hb
  rw [build_eq_of_merged hv, build_eq_of_merged hw,
    ofValue?_congr fun k ↦ (hvAt k).trans ((h k).trans (hwAt k).symm)]

theorem build_eq_of_interleaved {as bs : List Layer} (hkeys : keysOf as = keysOf bs)
    (hfiles : filesOf as = filesOf bs) : build as = build bs := by
  have hkey (layers : List Layer) :
      layers.filterMap Layer.key? = (keysOf layers).filterMap Layer.key? := by
    rw [keysOf, List.filterMap_filter]
    exact List.filterMap_congr fun l _ ↦ by cases l <;> rfl
  have hfile (layers : List Layer) :
      layers.filterMap Layer.file? = (filesOf layers).filterMap Layer.file? := by
    rw [filesOf, List.filterMap_filter]
    exact List.filterMap_congr fun l _ ↦ by cases l <;> rfl
  rw [build, build, hkey as, hfile as, hkeys, hfiles, ← hkey, ← hfile]

/-- What a layer gives a setting is hidden by a later layer of its kind, and what a file gives also by
any key. -/
def Hidden (before : List Layer) (l : Layer) (after : List Layer) (k : Leaf) : Prop :=
  (∃ o ∈ after, o.isKey = l.isKey ∧ (o.value? k).isSome) ∨
  (l.isKey = false ∧ ∃ o ∈ before ++ after, o.isKey = true ∧ (o.value? k).isSome)

/-- Among the layers of a kind one layer can be replaced where it says the same, or where a later one
of the kind says something too. -/
theorem last?_filter_eq {p : Layer → Bool} {before after : List Layer} {l l' : Layer} {k : Leaf}
    (hp : p l' = p l) (h : p l = true →
      l'.value? k = l.value? k ∨ ∃ o ∈ after, p o = true ∧ (o.value? k).isSome) :
    last? ((before ++ l' :: after).filter p) k = last? ((before ++ l :: after).filter p) k := by
  cases hl : p l with
  | false => simp [hp, hl]
  | true =>
    simp only [List.filter_append, List.filter_cons, hp, hl, if_true, last?_append, last?_cons]
    obtain hvalue | ⟨o, ho, hpo, hsome⟩ := h hl
    · rw [hvalue]
    · have hlast : (last? (after.filter p) k).isSome :=
        isSome_last? (List.mem_filter.mpr ⟨ho, hpo⟩) hsome
      obtain ⟨v, hv⟩ := Option.isSome_iff_exists.mp hlast
      simp [hv]

theorem effective?_eq_of_hidden {before after : List Layer} {l l' : Layer} {k : Leaf}
    (hkind : l'.isKey = l.isKey) (h : l'.value? k = l.value? k ∨ Hidden before l after k) :
    effective? (before ++ l' :: after) k = effective? (before ++ l :: after) k := by
  have hkeys : last? (keysOf (before ++ l' :: after)) k =
      last? (keysOf (before ++ l :: after)) k := by
    refine last?_filter_eq hkind fun hl ↦ h.imp_right ?_
    rintro (⟨o, ho, hkey, hsome⟩ | ⟨hfile, -⟩)
    · exact ⟨o, ho, hkey.trans hl, hsome⟩
    · rw [hl] at hfile
      contradiction
  by_cases hkey : ∃ o ∈ before ++ after, o.isKey = true ∧ (o.value? k).isSome
  · -- a key decides, whatever the files say
    obtain ⟨o, ho, hkey, hsome⟩ := hkey
    have hmem : o ∈ keysOf (before ++ l :: after) := by
      refine List.mem_filter.mpr ⟨?_, hkey⟩
      obtain ho | ho := List.mem_append.mp ho
      · exact List.mem_append_left _ ho
      · exact List.mem_append_right _ (List.mem_cons_of_mem _ ho)
    obtain ⟨v, hv⟩ := Option.isSome_iff_exists.mp (isSome_last? hmem hsome)
    rw [effective?, effective?, hkeys, hv, Option.some_or, Option.some_or]
  · have hfiles : last? (filesOf (before ++ l' :: after)) k =
        last? (filesOf (before ++ l :: after)) k := by
      refine last?_filter_eq (by rw [hkind]) fun hl ↦ h.imp_right ?_
      rintro (⟨o, ho, hsame, hsome⟩ | ⟨-, hkey'⟩)
      · exact ⟨o, ho, by rwa [hsame], hsome⟩
      · exact absurd hkey' hkey
    rw [effective?, effective?, hkeys, hfiles]

/-- What is true of the settings that layers make. How files and keys are mixed does not matter, only
the order of the files and that of the keys. The effective values are those of the merged tree; the
settings are read off them, and there are none only if one of the four is invalid. What a layer gives
a setting that other layers hide is harmless: another layer of the kind, valid or not, could stand in
its place. -/
structure Layered (layers : List Layer) : Prop where
  interleaved : ∀ others, keysOf others = keysOf layers → filesOf others = filesOf layers →
    build others = build layers
  effective : ∃ v, merged layers = .ok v ∧ ∀ k, v.at? k = effective? layers k
  built : ∀ s, build layers = .ok s ↔
    (effective? layers .language).bind (choice? Language) = some s.language ∧
    (effective? layers .counting).bind (choice? LineCounting) = some s.counting ∧
    (effective? layers .format).bind (choice? OutputFormat) = some s.format ∧
    (effective? layers .showTokens).bind flag? = some s.showTokens
  refused : ∀ e, build layers = .error e → e = .invalid
  harmless : ∀ before l after, layers = before ++ l :: after → ∀ l' : Layer, l'.Regular →
    l'.isKey = l.isKey → (∀ k, l'.value? k = l.value? k ∨ Hidden before l after k) →
    build (before ++ l' :: after) = build layers

theorem layered_by_kind {layers : List Layer} (h : ∀ l ∈ layers, l.Regular) : Layered layers := by
  obtain ⟨v, hv, hvAt⟩ := exists_merged h
  have hbuild := build_eq_of_merged hv
  refine ⟨fun others ↦ build_eq_of_interleaved, ⟨v, hv, hvAt⟩, fun s ↦ ?_, fun e he ↦ ?_, ?_⟩
  · rw [← hvAt, ← hvAt, ← hvAt, ← hvAt, ← ofValue?_eq_some_iff, hbuild]
    cases ofValue? v <;> simp
  · rw [hbuild] at he
    cases hs : ofValue? v <;> simp [hs] at he
    exact he.symm
  · rintro before l after rfl l' hl' hkind hvalues
    refine build_congr (fun o ho ↦ ?_) h fun k ↦ effective?_eq_of_hidden hkind (hvalues k)
    obtain ho | rfl | ho : o ∈ before ∨ o = l' ∨ o ∈ after := by simpa using ho
    · exact h o (by simp [ho])
    · exact hl'
    · exact h o (by simp [ho])

/-- A key given before the files, a file with a value that is none, and one with a dotted key. -/
def samples : List Layer :=
  [.key "analysis.language" (.text "Boolean"),
    .file true (some "[analysis]\nlanguage = 'pascal'\n\n[OUTPUT]\nFormat = 'json'\n"),
    .file false none,
    .key "output.show_tokens" (.integer 0),
    .file false (some "output.format = 'yaml'\n")]

theorem regular_samples : ∀ l ∈ samples, l.Regular := by
  -- a check of the characters that are there, and not one of all characters there are
  have hbare {file : List (String × Value)}
      (h : file.all (·.1.toList.all Toml.isBareKeyChar) = true) :
      ∀ e ∈ file, ∀ c ∈ e.1.toList, Toml.isBareKeyChar c :=
    fun e he ↦ List.all_eq_true.mp (List.all_eq_true.mp h e he)
  have hpascal : Tidy [("analysis", .table [("language", .text "pascal")]),
      ("OUTPUT", .table [("Format", .text "json")])] :=
    ⟨hbare (by decide +kernel), by decide +kernel, fun k ↦ by cases k <;> decide +kernel⟩
  have hyaml : Tidy [("output", .table [("format", .text "yaml")])] :=
    ⟨hbare (by decide +kernel), by decide +kernel, fun k ↦ by cases k <;> decide +kernel⟩
  simp only [samples, List.forall_mem_cons]
  exact ⟨.key .language rfl, .read true (by cbv) hpascal, .absent, .key .showTokens rfl,
    .read false (by cbv) hyaml, by simp⟩

theorem layered_by_kind_samples :
    (∀ l ∈ samples, l.Regular) ∧ build samples = .ok ⟨.boolean, .nonBlank, .yaml, false⟩ :=
  ⟨regular_samples, ((layered_by_kind regular_samples).built _).mpr
    ⟨by decide +kernel, by decide +kernel, by decide +kernel, by decide +kernel⟩⟩

end Lookahead.Settings
