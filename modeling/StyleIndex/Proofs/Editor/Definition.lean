import Mathlib.Tactic
import StyleIndex.Editor.Hover
import StyleIndex.Proofs.Editor.Reference
import StyleIndex.Proofs.Resolution.Shadowing
import StyleIndex.Proofs.Symbol.Record

set_option autoImplicit false

/-! # Go to definition lands on the name

The location of a definition is a range in the text that declares the symbol. Read in that text,
the range holds the name under the cursor (`slice_definition?`).

The record that wins is one of three kinds. A record of a whole text has its symbols where
`Proofs/Symbol/Record.lean` says. A record recovered from a buffer that does not parse was
extracted from the part before the cursor with its open constructs closed, while its positions are
read in the whole buffer; the two texts agree up to the cursor, what is appended there holds no
byte of a name, and a name that reaches the cursor ends there because the name under the cursor
does. A stored record has its symbols in the text of its file.
-/

namespace StyleIndex

/-! ## What is appended to a text -/

namespace OpenConstructs

/-- The scan stands in a literal only behind a quote. -/
def QuotesLiterals (s : OpenConstructs) : Prop := ∀ q, s.mode = .literal q → Ascii.isQuote q = true

/-- The mode after one byte: as before, code, a comment, or a literal behind its quote. -/
theorem mode_step (s : OpenConstructs) (c : UInt8) (after : Option UInt8) :
    (s.step c after).1.mode = s.mode ∨ (s.step c after).1.mode = .code ∨
      (s.step c after).1.mode = .lineComment ∨ (s.step c after).1.mode = .blockComment ∨
      (Ascii.isQuote c = true ∧ (s.step c after).1.mode = .literal c) := by
  have hclose : (s.close c).mode = s.mode := by
    unfold close
    split
    · rfl
    · split <;> rfl
  unfold step
  split
  · split_ifs <;> simp
  · split_ifs <;> simp
  · split_ifs <;> simp
  · split_ifs <;> simp_all

theorem QuotesLiterals.step {s : OpenConstructs} (h : s.QuotesLiterals) (c : UInt8)
    (after : Option UInt8) : (s.step c after).1.QuotesLiterals := by
  intro q hq
  rcases mode_step s c after with hmode | hmode | hmode | hmode | ⟨hquote, hmode⟩
  · exact h q (hmode.symm.trans hq)
  · rw [hmode] at hq
    cases hq
  · rw [hmode] at hq
    cases hq
  · rw [hmode] at hq
    cases hq
  · rw [hmode] at hq
    cases hq
    exact hquote

theorem QuotesLiterals.scan {s : OpenConstructs} (h : s.QuotesLiterals) (t : Text) :
    (s.scan t).QuotesLiterals := by
  fun_induction OpenConstructs.scan s t with
  | case1 s => exact h
  | case2 s c => exact h.step c Option.none
  | case3 s c d rest s' hstep ih =>
      refine ih ?_
      have hs := h.step c (some d)
      rwa [hstep] at hs
  | case4 s c d rest s' hstep ih =>
      refine ih ?_
      have hs := h.step c (some d)
      rwa [hstep] at hs

/-- The bytes that closers are made of. -/
def closingBytes : List UInt8 :=
  [Ascii.lf, Ascii.star, Ascii.slash, Ascii.quote, Ascii.apostrophe, Ascii.rparen, Ascii.rbracket,
    Ascii.rbrace]

theorem mem_closingBytes {s : OpenConstructs} (h : s.QuotesLiterals) {c : UInt8}
    (hc : c ∈ s.closers) : c ∈ closingBytes := by
  unfold closers at hc
  rcases List.mem_append.mp hc with hc | hc
  · cases hmode : s.mode with
    | code =>
        rw [hmode] at hc
        cases hc
    | lineComment =>
        rw [hmode] at hc
        obtain rfl := List.mem_singleton.mp hc
        decide
    | blockComment =>
        rw [hmode] at hc
        have hc : c = Ascii.star ∨ c = Ascii.slash := by simpa using hc
        rcases hc with rfl | rfl
        · decide
        · decide
    | literal q =>
        rw [hmode] at hc
        obtain rfl := List.mem_singleton.mp hc
        rcases isQuote_iff.mp (h c hmode) with rfl | rfl
        · decide
        · decide
  · obtain ⟨o, -, rfl⟩ := List.mem_map.mp hc
    unfold closerOf
    split_ifs
    · decide
    · decide
    · decide

end OpenConstructs

theorem mem_closingBytes_of_mem_closers {src : Text} {c : UInt8}
    (hc : c ∈ (openConstructs src).closers) : c ∈ OpenConstructs.closingBytes := by
  refine OpenConstructs.mem_closingBytes (OpenConstructs.QuotesLiterals.scan ?_ src) hc
  intro q hq
  cases hq

/-- What closes the open constructs of a text holds no byte of a name. -/
theorem not_isNameByte_of_mem_closers {src : Text} {c : UInt8}
    (hc : c ∈ (openConstructs src).closers) : isNameByte c = false := by
  have hall : OpenConstructs.closingBytes.all (fun c => !isNameByte c) = true := by decide
  simpa using List.all_eq_true.mp hall c (mem_closingBytes_of_mem_closers hc)

/-! ## Recovered records -/

/-- A name that stands in a closed text stands in front of what closes it. -/
theorem NameAt.le_of_closeOpen {p name : Text} {offset : Nat}
    (h : NameAt (closeOpen p) offset name) (hname : IsSymbolName name) :
    offset + name.length ≤ p.length := by
  by_contra hlt
  obtain ⟨front, back, htext, rfl, -, -⟩ := h
  have hpos := List.length_pos_of_ne_nil hname.ne_nil
  -- the last byte of the name, in both readings of the text
  have hlast : (closeOpen p)[front.length + name.length - 1]?
      = some (name.getLast hname.ne_nil) := by
    rw [htext, List.getElem?_append_right (by omega), List.getElem?_append_left (by omega),
      List.getLast_eq_getElem, List.getElem?_eq_getElem (by omega)]
    congr 2
    omega
  rw [closeOpen, List.getElem?_append_right (by omega)] at hlast
  have hnot := not_isNameByte_of_mem_closers (List.mem_of_getElem? hlast)
  rw [hname.getLast] at hnot
  cases hnot

/-- **A symbol recovered from the text before the cursor is declared in the whole text**, if it
has the name under the cursor. -/
theorem DeclaredIn.of_closeOpen {t : Text} {cursor offset : Nat} {position : Position}
    {ref : SymbolReference} (hcursor : cursor ≤ t.length)
    (href : referenceAt? t cursor = some ref)
    (h : DeclaredIn (closeOpen (t.take cursor)) ref.name offset position) :
    DeclaredIn t ref.name offset position := by
  obtain ⟨hname, rfl⟩ := h
  have hsymbol := (slice_of_referenceAt? hcursor href).1
  have hle := hname.le_of_closeOpen hsymbol
  have hpos := List.length_pos_of_ne_nil hsymbol.ne_nil
  constructor
  · rw [← List.take_append_drop cursor t]
    refine NameAt.of_common hname hsymbol.ne_nil hle ?_
    intro hend
    obtain ⟨front, back, htext, rfl, -, -⟩ := hname
    rw [closeOpen, ← List.append_assoc] at htext
    have hcut := (List.append_inj htext (by rw [List.length_append, hend])).1
    exact startsFresh_of_not_isNameByte (not_isNameByte_of_take_eq href hcut hsymbol)
  · conv_rhs => rw [← List.take_append_drop cursor t]
    exact LineIndex.positionAt_append_congr (by omega) _ _

/-- Where the record of a buffer comes from: from its text, from the text before the cursor, or
from the store. -/
theorem recordAt_cases (s : Store) (path t : Text) (cursor : Nat) :
    ((parse t).isOk = true ∧ (recordAt s path t cursor).SpeltIn t) ∨
      ((parse t).isOk = false ∧ (parse (closeOpen (t.take cursor))).isOk = true ∧
        (recordAt s path t cursor).SpeltIn (closeOpen (t.take cursor))) ∨
      ((parse t).isOk = false ∧ (parse (closeOpen (t.take cursor))).isOk = false ∧
        recordAt s path t cursor = (s.get? path).getD (Document.empty path)) := by
  have hextract : ∀ u : Text, ((parse u).isOk = true ∧
        ∃ d, extractStrict path u (some cursor) = .ok d ∧ d.SpeltIn u) ∨
      ((parse u).isOk = false ∧ ∃ e, extractStrict path u (some cursor) = .error e) := by
    intro u
    cases hparse : parse u with
    | ok sheet =>
        have hd : extractStrict path u (some cursor)
            = .ok (Document.ofNodes path u (some cursor) sheet.children) := by
          rw [extractStrict, hparse]
        exact Or.inl ⟨rfl, _, hd, speltIn_extractStrict hd⟩
    | error e => exact Or.inr ⟨rfl, _, by rw [extractStrict, hparse]⟩
  rcases hextract t with ⟨hok, d, hd, hspelt⟩ | ⟨hfail, e, he⟩
  · refine Or.inl ⟨hok, ?_⟩
    rwa [recordAt, hd]
  · have hrecord : recordAt s path t cursor = recoverRecord s path t cursor := by
      rw [recordAt, he]
    rw [hrecord]
    rcases hextract (closeOpen (t.take cursor)) with ⟨hok, d, hd, hspelt⟩ | ⟨hfail', e', he'⟩
    · refine Or.inr (Or.inl ⟨hfail, hok, ?_⟩)
      simp only [recoverRecord, hd]
      exact ⟨hspelt.vars, hspelt.mixins, hspelt.functions⟩
    · refine Or.inr (Or.inr ⟨hfail, hfail', ?_⟩)
      simp only [recoverRecord, he']

/-! ## Definitions -/

/-- A declaration of a visited document, read in the text of the document. -/
theorem Visit.declaredIn_of_mem_declared {t : Text} {kind : SymbolKind} {v : Visit}
    {f : FoundSymbol} (h : v.document.SpeltIn t) (hf : f ∈ v.declared kind)
    (hname : kind = .variableSymbol → f.name.head? = some Ascii.dollar) :
    DeclaredIn t f.name f.offset f.position := by
  cases kind with
  | variableSymbol =>
      obtain ⟨a, ha, rfl⟩ := List.mem_map.mp hf
      exact h.vars a ha (hname rfl)
  | mixin =>
      obtain ⟨a, ha, rfl⟩ := List.mem_map.mp hf
      exact h.mixins a ha
  | function =>
      obtain ⟨a, ha, rfl⟩ := List.mem_map.mp hf
      exact h.functions a ha

/-- The text that declares a symbol found for a cursor in a buffer: that of a file for a symbol of
another document, and for a symbol of the stored record; else that of the buffer. -/
def declaringText (files : Text → Text) (b : Buffer) (cursor : Nat) (f : FoundSymbol) : Text :=
  if 0 < f.depth ∨ ((parse b.text).isOk = false ∧
      (parse (closeOpen (b.text.take cursor))).isOk = false) then files f.document
  else b.text

/-- Every record of the store is that of the text of its file. -/
def Store.Extracted (s : Store) (files : Text → Text) : Prop :=
  ∀ k d, s.atKey? k = some d → d = extractLenient d.path (files d.path) none

theorem Store.Extracted.speltIn {s : Store} {files : Text → Text} (h : s.Extracted files)
    {path : Text} {d : Document} (hd : s.get? path = some d) : d.SpeltIn (files d.path) := by
  have hspelt := speltIn_extractLenient d.path (files d.path) none
  rwa [← h (s.key path) d hd] at hspelt

theorem Store.extracted_empty (cwd : Text) (files : Text → Text) :
    (Store.empty cwd).Extracted files := by
  intro k d hd
  simp [Store.atKey?, Store.empty] at hd

theorem Store.Extracted.insert {s : Store} {files : Text → Text} (h : s.Extracted files)
    (path : Text) : (s.insert (extractLenient path (files path) none)).Extracted files := by
  have hpath : (extractLenient path (files path) none).path = path := by
    unfold extractLenient
    split <;> rfl
  intro k d hd
  simp only [Store.atKey?, Store.insert, Std.ExtTreeMap.getElem?_insert] at hd
  split_ifs at hd
  · cases hd
    rw [hpath]
  · exact h k d hd

/-- **A symbol found for the name under a cursor is declared in its declaring text.** -/
theorem declaredIn_of_lookup? {s : Store} {files : Text → Text} (hfiles : s.Extracted files)
    {b : Buffer} {path : Text} {cursor : Nat} {ref : SymbolReference} {f : FoundSymbol}
    (hcursor : cursor ≤ b.text.length) (href : referenceAt? b.text cursor = some ref)
    (hfound : (s.resolve (recordAt s path b.text cursor)).lookup? ref.name ref.kind = some f) :
    f.name = ref.name ∧
      DeclaredIn (declaringText files b cursor f) ref.name f.offset f.position := by
  have hvar := (slice_of_referenceAt? hcursor href).2.1
  rw [lookup?_resolve s _ ref.kind ref.name hvar] at hfound
  have hname : f.name = ref.name := by simpa using List.find?_some hfound
  obtain ⟨v, hv, hf⟩ := List.mem_flatMap.mp (List.mem_of_find?_eq_some hfound)
  obtain ⟨hdocument, hdepth⟩ := Visit.place_of_mem_declared hf
  refine ⟨hname, ?_⟩
  have hdeclared : ∀ t, v.document.SpeltIn t → DeclaredIn t ref.name f.offset f.position := by
    intro t ht
    rw [← hname] at hvar ⊢
    exact Visit.declaredIn_of_mem_declared ht hf hvar
  obtain ⟨⟨seen, hexplored⟩, -⟩ := explored_visits s (recordAt s path b.text cursor)
  rcases (hexplored.chain v hv).start_or_stored with ⟨hzero, hstart⟩ | ⟨hpos, hstored, -⟩
  · -- the record of the buffer
    rw [hstart] at hdeclared
    rcases recordAt_cases s path b.text cursor with ⟨hok, hspelt⟩ | ⟨hfail, hok, hspelt⟩ |
      ⟨hfail, hfail', hrecord⟩
    · have ht : declaringText files b cursor f = b.text := by
        rw [declaringText, if_neg (by simp [hdepth, hzero, hok])]
      rw [ht]
      exact hdeclared _ hspelt
    · have ht : declaringText files b cursor f = b.text := by
        rw [declaringText, if_neg (by simp [hdepth, hzero, hok])]
      rw [ht]
      exact DeclaredIn.of_closeOpen hcursor href (hdeclared _ hspelt)
    · have ht : declaringText files b cursor f = files f.document := by
        rw [declaringText, if_pos (Or.inr ⟨hfail, hfail'⟩)]
      rw [ht, hdocument, hstart]
      refine hdeclared _ ?_
      rw [hrecord]
      cases hget : s.get? path with
      | none => exact ⟨by simp [Document.empty], by simp [Document.empty], by simp [Document.empty]⟩
      | some d => exact hfiles.speltIn hget
  · -- a record of the store
    have ht : declaringText files b cursor f = files f.document := by
      rw [declaringText, if_pos (Or.inl (by rw [hdepth]; exact hpos))]
    rw [ht, hdocument]
    exact hdeclared _ (hfiles.speltIn hstored)

/-- **Go to definition lands on the name.** If the cursor in a buffer has a definition, there is
a reference under the cursor and a visible symbol of its name, and the range of the definition,
read in the text that declares the symbol, holds what the buffer spells at the reference: the
whole name, with the dollar sign of a variable. -/
theorem slice_definition? (s : Store) (files : Text → Text) (hfiles : s.Extracted files)
    (b : Buffer) (offset : Int) (loc : Location) (h : definition? s b offset = some loc) :
    ∃ ref found, (b.request s offset).symbol? = some (ref, found) ∧ loc = found.location ∧
      referenceAt? b.text (b.clamp offset) = some ref ∧
      ref.start ≤ b.clamp offset ∧ b.clamp offset ≤ ref.stop ∧
      b.text.slice ref.start ref.stop = ref.name ∧
      (ref.kind = .variableSymbol → ref.name.head? = some Ascii.dollar) ∧
      (declaringText files b (b.clamp offset) found).slice
        ((LineIndex.ofText (declaringText files b (b.clamp offset) found)).offsetAt
          loc.range.start)
        ((LineIndex.ofText (declaringText files b (b.clamp offset) found)).offsetAt
          loc.range.stop) = ref.name := by
  obtain ⟨⟨ref, found⟩, hsymbol, rfl⟩ := Option.map_eq_some_iff.mp h
  have hcursor : b.clamp offset ≤ b.text.length := Nat.min_le_right _ _
  obtain ⟨href, hfound⟩ : referenceAt? b.text (b.clamp offset) = some ref ∧
      (s.resolve (recordAt s (s.key b.path) b.text (b.clamp offset))).lookup? ref.name ref.kind
        = some found := by
    simp only [Request.symbol?, Option.bind_eq_bind, Option.bind_eq_some_iff,
      Option.pure_def] at hsymbol
    obtain ⟨ref', href, found', hfound, heq⟩ := hsymbol
    cases heq
    exact ⟨href, hfound⟩
  obtain ⟨hsymbolName, hvar, hslice, hstart, hstop⟩ := slice_of_referenceAt? hcursor href
  obtain ⟨hname, hat, hposition⟩ := declaredIn_of_lookup? hfiles hcursor href hfound
  refine ⟨ref, found, hsymbol, rfl, href, hstart, hstop, hslice, hvar, ?_⟩
  have hrange := hat.slice_rangeOfName hsymbolName.ne_nil hsymbolName.not_isLineBreak
  rw [← hposition] at hrange
  have hloc : found.location.range = rangeOfName found.position ref.name := by
    rw [← hname]
    rfl
  rw [hloc]
  exact hrange

/-- The text of a file that declares a mixin. -/
def mixinFile : Text := text "@mixin grün($x) \x7b\x7d"

/-- A store with the record of that file. -/
def mixinStore : Store :=
  (Store.empty (text "/")).insert (extractLenient (text "/b.scss") mixinFile none)

/-- A buffer that does not parse yet, in which the mixin is included. -/
def includingBuffer : Buffer :=
  ⟨text "/a.scss", text "@import 'b'; c \x7b @include grün("⟩

theorem slice_definition?_mixinFile :
    definition? mixinStore includingBuffer 29
        = some ⟨text "/b.scss", ⟨⟨0, 7⟩, ⟨0, 11⟩⟩⟩ ∧
      ∃ ref found, (includingBuffer.request mixinStore 29).symbol? = some (ref, found) ∧
        ∃ t, t = declaringText (fun _ => mixinFile) includingBuffer
            (includingBuffer.clamp 29) found ∧
          t.slice ((LineIndex.ofText t).offsetAt ⟨0, 7⟩) ((LineIndex.ofText t).offsetAt ⟨0, 11⟩)
            = ref.name := by
  have hdef : definition? mixinStore includingBuffer 29
      = some ⟨text "/b.scss", ⟨⟨0, 7⟩, ⟨0, 11⟩⟩⟩ := by
    decide +kernel
  have hfiles : mixinStore.Extracted (fun _ => mixinFile) :=
    (Store.extracted_empty (text "/") fun _ => mixinFile).insert (text "/b.scss")
  obtain ⟨ref, found, hsymbol, -, -, -, -, -, -, hslice⟩ :=
    slice_definition? mixinStore (fun _ => mixinFile) hfiles includingBuffer 29 _ hdef
  exact ⟨hdef, ref, found, hsymbol, _, rfl, hslice⟩

end StyleIndex
