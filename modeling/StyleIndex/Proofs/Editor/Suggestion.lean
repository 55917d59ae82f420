import Mathlib.Data.List.Nodup
import Mathlib.Tactic
import StyleIndex.Editor.Completion
import StyleIndex.Proofs.Resolution.Shadowing

set_option autoImplicit false

/-! # Suggestions agree with lookups

A name can be visible more than once: in several blocks around the cursor, at the top level of the
file, and in imported files. Completion suggests it once, and a lookup finds one declaration of it.
`complete_agrees` says that the two are the same declaration, and that completion suggests all that
is visible of the kinds that fit, and nothing else.

Both go through the visible symbols of one kind from the front (`VisibleSet.symbols`). A lookup
takes the first symbol of its name (`lookup?_eq_find?`), and completion keeps a suggestion if it is
the first of its label (`mem_firstOfEachLabel`).
-/

namespace StyleIndex

/-! ## The first suggestion of each label -/

section FirstOfEachLabel

variable {seen : List Text} {items : List CompletionItem} {item : CompletionItem}

/-- **A suggestion is kept if a search for its label finds it**, and its label has not been seen. -/
theorem mem_firstOfEachLabel :
    item ∈ firstOfEachLabel seen items ↔
      item.label ∉ seen ∧ items.find? (·.label = item.label) = some item := by
  induction items generalizing seen with
  | nil => simp [firstOfEachLabel]
  | cons first rest ih =>
      rw [firstOfEachLabel]
      by_cases hlabel : first.label = item.label
      · -- the search ends here, and what follows has a label that has been seen
        rw [List.find?_cons_of_pos (by simpa using hlabel), Option.some.injEq]
        split_ifs with hseen
        · rw [List.contains_iff_mem, hlabel] at hseen
          simp [ih, hseen]
        · rw [List.contains_iff_mem, hlabel] at hseen
          simp [ih, hlabel, hseen, eq_comm]
      · -- the suggestion is not this one
        rw [List.find?_cons_of_neg (by simpa using hlabel)]
        have hne : item ≠ first := fun h => hlabel (congrArg CompletionItem.label h.symm)
        split_ifs with hseen
        · exact ih
        · simp [ih, hne, Ne.symm hlabel]

/-- No label is suggested twice. -/
theorem nodup_firstOfEachLabel (seen : List Text) (items : List CompletionItem) :
    ((firstOfEachLabel seen items).map CompletionItem.label).Nodup := by
  induction items generalizing seen with
  | nil => exact List.nodup_nil
  | cons first rest ih =>
      rw [firstOfEachLabel]
      split_ifs
      · exact ih seen
      · rw [List.map_cons, List.nodup_cons]
        refine ⟨?_, ih _⟩
        intro hmem
        obtain ⟨item, hitem, hlabel⟩ := List.mem_map.mp hmem
        exact (mem_firstOfEachLabel.mp hitem).1 (by rw [hlabel]; exact List.mem_cons_self)

end FirstOfEachLabel

/-! ## The visible symbols of one kind -/

/-- The visible symbols of one kind, in the order in which they are searched. -/
def VisibleSet.symbols (v : VisibleSet) : SymbolKind → List FoundSymbol
  | .variableSymbol => v.vars.map foundVariable
  | .mixin => v.mixins.map (foundCallable .mixin)
  | .function => v.functions.map (foundCallable .function)

/-- The suggestion of a symbol. -/
def FoundSymbol.suggestion (settings : Settings) (f : FoundSymbol) : CompletionItem :=
  .ofSymbol settings f.kind f.name
    (if f.kind = .variableSymbol then f.value else signatureLabel f.name f.parameters)
    f.document f.depth

theorem VisibleSet.kind_of_mem_symbols {v : VisibleSet} {kind : SymbolKind} {f : FoundSymbol}
    (h : f ∈ v.symbols kind) : f.kind = kind := by
  cases kind with
  | variableSymbol =>
      obtain ⟨e, -, rfl⟩ := List.mem_map.mp h
      rfl
  | mixin =>
      obtain ⟨e, -, rfl⟩ := List.mem_map.mp h
      rfl
  | function =>
      obtain ⟨e, -, rfl⟩ := List.mem_map.mp h
      rfl

/-- A lookup takes the first symbol of the name. -/
theorem VisibleSet.lookup?_eq_find? (v : VisibleSet) (name : Text) (kind : SymbolKind) :
    v.lookup? name kind = (v.symbols kind).find? (·.name = soughtName kind name) := by
  cases kind <;> rw [symbols, List.find?_map] <;> rfl

/-- The suggestions of one kind. -/
def VisibleSet.items (settings : Settings) (v : VisibleSet) (kind : SymbolKind) :
    List CompletionItem :=
  firstOfEachLabel [] ((v.symbols kind).map (FoundSymbol.suggestion settings))

/-- Whether symbols of a kind are suggested: they fit at the cursor, and the settings want them. -/
def CompletionContext.suggests (settings : Settings) (c : CompletionContext) : SymbolKind → Bool
  | .variableSymbol => c.vars && settings.suggestVariables
  | .mixin => c.mixins && settings.suggestMixins
  | .function => c.functions && settings.suggestFunctions

section Items

variable {settings : Settings} {v : VisibleSet} {kind : SymbolKind} {item : CompletionItem}

/-- **A suggestion is that of the symbol which a search for its label finds.** -/
theorem VisibleSet.mem_items :
    item ∈ v.items settings kind ↔
      ∃ f, (v.symbols kind).find? (·.name = item.label) = some f ∧
        f.suggestion settings = item := by
  rw [items, mem_firstOfEachLabel, List.find?_map, Option.map_eq_some_iff]
  simp only [List.not_mem_nil, not_false_eq_true, true_and]
  rfl

theorem VisibleSet.kind_of_mem_items (h : item ∈ v.items settings kind) : item.kind = kind := by
  obtain ⟨f, hf, rfl⟩ := mem_items.mp h
  exact kind_of_mem_symbols (List.mem_of_find?_eq_some hf)

/-- Every visible name is suggested. -/
theorem VisibleSet.exists_mem_items {name : Text}
    (h : name ∈ (v.symbols kind).map FoundSymbol.name) :
    ∃ item ∈ v.items settings kind, item.label = name := by
  obtain ⟨g, hg, rfl⟩ := List.mem_map.mp h
  have hfind : ((v.symbols kind).find? (·.name = g.name)).isSome := by
    rw [List.find?_isSome]
    exact ⟨g, hg, by simp⟩
  obtain ⟨f, hf⟩ := Option.isSome_iff_exists.mp hfind
  have hname : f.name = g.name := by simpa using List.find?_some hf
  refine ⟨f.suggestion settings, mem_items.mpr ⟨f, ?_, rfl⟩, hname⟩
  show (v.symbols kind).find? (·.name = f.name) = some f
  rw [hname, hf]

/-- A suggestion shows the declaration that a lookup of its label finds. -/
theorem VisibleSet.exists_lookup?_of_mem_items (h : item ∈ v.items settings kind)
    (hlabel : kind = .variableSymbol → item.label.head? = some Ascii.dollar) :
    ∃ found, v.lookup? item.label kind = some found ∧ found.name = item.label ∧
      item.document = found.document ∧ item.depth = found.depth := by
  obtain ⟨f, hf, rfl⟩ := mem_items.mp h
  refine ⟨f, ?_, rfl, rfl, rfl⟩
  rw [lookup?_eq_find?, soughtName_eq hlabel]
  exact hf

end Items

/-! ## The suggestions of a request -/

section Request

variable {settings : Settings} {r : Request} {item : CompletionItem}

/-- The suggestions come kind by kind. -/
theorem suggestions_eq_flatMap (settings : Settings) (r : Request) :
    r.suggestions settings = [.variableSymbol, .mixin, .function].flatMap fun kind =>
      if (completionContext settings r.text r.offset).suggests settings kind then
        r.visible.items settings kind
      else [] := by
  have hvars : variableItems settings r.visible = r.visible.items settings .variableSymbol := by
    rw [variableItems, VisibleSet.items, VisibleSet.symbols, List.map_map]
    rfl
  have hmixins : callableItems settings .mixin r.visible.mixins
      = r.visible.items settings .mixin := by
    rw [callableItems, VisibleSet.items, VisibleSet.symbols, List.map_map]
    rfl
  have hfunctions : callableItems settings .function r.visible.functions
      = r.visible.items settings .function := by
    rw [callableItems, VisibleSet.items, VisibleSet.symbols, List.map_map]
    rfl
  rw [Request.suggestions, hvars, hmixins, hfunctions]
  simp [CompletionContext.suggests]

theorem mem_suggestions :
    item ∈ r.suggestions settings ↔
      (completionContext settings r.text r.offset).suggests settings item.kind = true ∧
        item ∈ r.visible.items settings item.kind := by
  rw [suggestions_eq_flatMap, List.mem_flatMap]
  constructor
  · rintro ⟨kind, -, hitem⟩
    split_ifs at hitem with hsuggests
    · obtain rfl := VisibleSet.kind_of_mem_items hitem
      exact ⟨hsuggests, hitem⟩
    · cases hitem
  · rintro ⟨hsuggests, hitem⟩
    refine ⟨item.kind, ?_, by rwa [if_pos hsuggests]⟩
    cases item.kind <;> decide

/-- No two suggestions have the same kind and the same label. -/
theorem nodup_suggestions (settings : Settings) (r : Request) :
    ((r.suggestions settings).map fun item => (item.kind, item.label)).Nodup := by
  rw [suggestions_eq_flatMap, List.map_flatMap, List.nodup_flatMap]
  constructor
  · intro kind _
    split_ifs
    · refine List.Nodup.of_map Prod.snd ?_
      rw [List.map_map]
      exact nodup_firstOfEachLabel [] _
    · exact List.nodup_nil
  · have hkinds : [SymbolKind.variableSymbol, .mixin, .function].Nodup := by decide
    refine hkinds.imp fun {a b} hab => ?_
    -- what two kinds have in common would be of both kinds
    intro x ha hb
    obtain ⟨i, hi, rfl⟩ := List.mem_map.mp ha
    obtain ⟨j, hj, hij⟩ := List.mem_map.mp hb
    split_ifs at hi hj
    · have hkind : j.kind = i.kind := congrArg Prod.fst hij
      exact hab ((VisibleSet.kind_of_mem_items hi).symm.trans
        (hkind.symm.trans (VisibleSet.kind_of_mem_items hj)))
    all_goals simp at hi hj

end Request

/-- A request that has to parse is the one that is asked in any case. -/
theorem Buffer.request_of_requestStrict {s : Store} {b : Buffer} {offset : Int} {r : Request}
    (h : b.requestStrict s offset = .ok r) : b.request s offset = r := by
  simp only [Buffer.requestStrict] at h
  cases hextract : extractStrict (s.key b.path) b.text (some (b.clamp offset)) with
  | error e =>
      rw [hextract] at h
      cases h
  | ok record =>
      rw [hextract] at h
      obtain rfl := Except.ok.inj h
      simp only [Buffer.request, recordAt, hextract]

/-- **Suggestions agree with lookups.** No two suggestions have the same kind and label. A
suggestion has the document and the depth of the declaration that a lookup finds for its label and
kind. Of the kinds that fit at the cursor and are wanted, every visible name is suggested, and
nothing else is. -/
theorem complete_agrees {s : Store} {settings : Settings} {b : Buffer} {offset : Int}
    {items : List CompletionItem} (h : complete s settings b offset = .ok items) {r : Request}
    (hr : r = b.request s offset) :
    (items.map fun item => (item.kind, item.label)).Nodup ∧
      (∀ item ∈ items,
        (item.kind = .variableSymbol → item.label.head? = some Ascii.dollar) →
        ∃ found, r.visible.lookup? item.label item.kind = some found ∧
          found.name = item.label ∧ item.document = found.document ∧
          item.depth = found.depth) ∧
      (∀ kind, (completionContext settings r.text r.offset).suggests settings kind = true →
        ∀ name ∈ (r.visible.symbols kind).map FoundSymbol.name,
          ∃ item ∈ items, item.kind = kind ∧ item.label = name) ∧
      ∀ item ∈ items,
        (completionContext settings r.text r.offset).suggests settings item.kind = true ∧
          item.label ∈ (r.visible.symbols item.kind).map FoundSymbol.name := by
  have hitems : items = r.suggestions settings := by
    unfold complete at h
    split_ifs at h
    · cases hstrict : b.requestStrict s offset with
      | error e =>
          rw [hstrict] at h
          cases h
      | ok r' =>
          rw [hstrict] at h
          rw [hr, b.request_of_requestStrict hstrict]
          exact (Except.ok.inj h).symm
    · rw [hr]
      exact (Except.ok.inj h).symm
  subst hitems
  refine ⟨nodup_suggestions settings r, ?_, ?_, ?_⟩
  · intro item hitem
    exact VisibleSet.exists_lookup?_of_mem_items (mem_suggestions.mp hitem).2
  · intro kind hsuggests name hname
    obtain ⟨item, hitem, hlabel⟩ := VisibleSet.exists_mem_items hname
    have hkind := VisibleSet.kind_of_mem_items hitem
    refine ⟨item, mem_suggestions.mpr ?_, hkind, hlabel⟩
    rw [hkind]
    exact ⟨hsuggests, hitem⟩
  · intro item hitem
    obtain ⟨hsuggests, hmem⟩ := mem_suggestions.mp hitem
    obtain ⟨f, hf, hsuggestion⟩ := VisibleSet.mem_items.mp hmem
    have hname : f.name = item.label := by simpa using List.find?_some hf
    refine ⟨hsuggests, ?_⟩
    rw [← hname]
    exact List.mem_map_of_mem (List.mem_of_find?_eq_some hf)

/-- A store with a file that declares two variables. -/
def importedStore : Store :=
  (Store.empty (text "/")).insert (extractLenient (text "/b.scss") (text "$x: 0; $y: 3;") none)

/-- A buffer that is being typed. It declares one of the variables again, twice. -/
def typedBuffer : Buffer := ⟨text "/a.scss", text "@import 'b';\n$x: 1; c \x7b $x: 2; d: $"⟩

/-- The suggestions at its end. -/
def typedItems : List CompletionItem :=
  [⟨text "$x", .variableSymbol, text "2", text "Declared in a.scss", text "/a.scss", 0⟩,
    ⟨text "$y", .variableSymbol, text "(implicitly) 3", text "Declared in b.scss",
      text "/b.scss", 1⟩]

/-- Each variable is suggested once, with the declaration that a lookup finds. -/
theorem complete_agrees_typedBuffer :
    complete importedStore Settings.default typedBuffer 35 = .ok typedItems ∧
      ∀ item ∈ typedItems, ∃ found,
        (typedBuffer.request importedStore 35).visible.lookup? item.label item.kind = some found ∧
          item.document = found.document ∧ item.depth = found.depth := by
  have hcomplete : complete importedStore Settings.default typedBuffer 35 = .ok typedItems := by
    decide +kernel
  obtain ⟨-, hlookup, -, -⟩ := complete_agrees hcomplete rfl
  refine ⟨hcomplete, fun item hitem => ?_⟩
  have hdollar : ∀ i ∈ typedItems, i.label.head? = some Ascii.dollar := by decide
  obtain ⟨found, hfound, -, hplace⟩ := hlookup item hitem fun _ => hdollar item hitem
  exact ⟨found, hfound, hplace⟩

end StyleIndex
