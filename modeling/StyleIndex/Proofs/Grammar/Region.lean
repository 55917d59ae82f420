import Mathlib.Tactic
import StyleIndex.Proofs.Grammar.Boundary

set_option autoImplicit false

/-! # Where literals and comments stand

The string literals and comments of a text, as it is cut into tokens, each with its extent
(`regions`). Literals inside interpolations count; what looks like a comment there does not, since
an interpolation is cut off by its braces and literals alone.

The regions stand in the text one behind the other, and each is spelt there by a literal or comment
of the grammar (`regionsIn_regions`). The proof goes token by token, and an interpolation goes
through its bytes.
-/

namespace StyleIndex

/-- The kinds of text that are not code. -/
inductive RegionKind where
  | literal
  | lineComment
  | blockComment
  deriving DecidableEq

/-- A literal or comment that stands from offset `start` up to, and not including, `stop`. A line
comment ends in front of its line feed. -/
structure Region where
  kind : RegionKind
  start : Nat
  stop : Nat
  deriving DecidableEq

/-- The literals in a text that starts at offset `pos`, where nothing but literals counts. -/
def literalRegions (pos : Nat) : Text → List Region
  | [] => []
  | c :: rest =>
    if Ascii.isQuote c then
      match Token.literalLength? c rest with
      | some n => ⟨.literal, pos, pos + (n + 1)⟩ :: literalRegions (pos + (n + 1)) (rest.drop n)
      | none => []
    else literalRegions (pos + 1) rest
termination_by t => t.length
decreasing_by all_goals (simp only [List.length_drop, List.length_cons]; omega)

/-- The literals and comments in a token that starts at offset `pos`. -/
def Token.regions (pos : Nat) (k : Token) : List Region :=
  match k.kind with
  | .literal => [⟨.literal, pos, pos + k.text.length⟩]
  | .lineComment => [⟨.lineComment, pos, pos + (k.text.takeWhile (· != Ascii.lf)).length⟩]
  | .blockComment => [⟨.blockComment, pos, pos + k.text.length⟩]
  | .interpolation => literalRegions pos k.text
  | _ => []

/-- The literals and comments in a row of tokens that starts at offset `pos`. -/
def Token.rowRegions (pos : Nat) : List Token → List Region
  | [] => []
  | k :: ks => k.regions pos ++ rowRegions (pos + k.text.length) ks

/-- The literals and comments of a text. -/
def regions (t : Text) : List Region := Token.rowRegions 0 (tokenize 0 t).tokens

/-! ## What a region spells -/

/-- The region is spelt in `t` by a literal or comment. -/
inductive Region.ReadFrom (t : Text) : Region → Prop
  | literal {front back : Text} {l : Literal} : l.WellFormed → t = front ++ (l.text ++ back) →
      ReadFrom t ⟨.literal, front.length, front.length + l.text.length⟩
  | lineComment {front u back : Text} : Ascii.lf ∉ u → (∀ c ∈ back.head?, c = Ascii.lf) →
      t = front ++ (Ascii.slash :: Ascii.slash :: (u ++ back)) →
      ReadFrom t ⟨.lineComment, front.length, front.length + (u.length + 2)⟩
  | blockComment {front u back : Text} : IsCommentText u →
      t = front ++ (Ascii.slash :: Ascii.star :: (u ++ Ascii.star :: Ascii.slash :: back)) →
      ReadFrom t ⟨.blockComment, front.length, front.length + (u.length + 4)⟩

/-- The regions are spelt in `t`, one behind the other between the offsets `lo` and `hi`. -/
structure RegionsIn (t : Text) (lo hi : Nat) (rs : List Region) : Prop where
  read : ∀ r ∈ rs, r.ReadFrom t
  between : ∀ r ∈ rs, lo ≤ r.start ∧ r.stop ≤ hi
  apart : rs.Pairwise fun a b => a.stop ≤ b.start

namespace RegionsIn

variable {t : Text} {lo mid hi : Nat} {rs rs' : List Region}

theorem nil : RegionsIn t lo hi [] := ⟨by simp, by simp, .nil⟩

theorem singleton {r : Region} (h : r.ReadFrom t) (hlo : lo ≤ r.start) (hhi : r.stop ≤ hi) :
    RegionsIn t lo hi [r] := by
  refine ⟨?_, ?_, List.pairwise_singleton _ _⟩
  · intro r' hr'
    rwa [List.mem_singleton.mp hr']
  · intro r' hr'
    rw [List.mem_singleton.mp hr']
    exact ⟨hlo, hhi⟩

theorem append (h : RegionsIn t lo mid rs) (h' : RegionsIn t mid hi rs') (hlo : lo ≤ mid)
    (hhi : mid ≤ hi) : RegionsIn t lo hi (rs ++ rs') := by
  refine ⟨?_, ?_, List.pairwise_append.mpr ⟨h.apart, h'.apart, ?_⟩⟩
  · intro r hr
    exact (List.mem_append.mp hr).elim (h.read r) (h'.read r)
  · intro r hr
    rcases List.mem_append.mp hr with hr | hr
    · have := h.between r hr
      omega
    · have := h'.between r hr
      omega
  · intro a ha b hb
    exact (h.between a ha).2.trans (h'.between b hb).1

theorem mono {lo' hi' : Nat} (h : RegionsIn t lo hi rs) (hlo : lo' ≤ lo) (hhi : hi ≤ hi') :
    RegionsIn t lo' hi' rs := by
  refine ⟨h.read, fun r hr => ?_, h.apart⟩
  have := h.between r hr
  omega

/-- Of two regions that share a place, one is the other. -/
theorem eq_of_overlap (h : RegionsIn t lo hi rs) {a b : Region} (ha : a ∈ rs) (hb : b ∈ rs)
    (hab : a.start < b.stop) (hba : b.start < a.stop) : a = b := by
  by_contra hne
  have hpairs : rs.Pairwise fun a b => a.stop ≤ b.start ∨ b.stop ≤ a.start :=
    h.apart.imp Or.inl
  have : Std.Symm fun a b : Region => a.stop ≤ b.start ∨ b.stop ≤ a.start :=
    ⟨fun _ _ => Or.symm⟩
  have := hpairs.forall ha hb hne
  omega

end RegionsIn

/-! ## The regions of a text -/

theorem regionsIn_literalRegions {t u : Text} (pos : Nat) : ∀ {front back : Text},
    t = front ++ (u ++ back) → front.length = pos →
      RegionsIn t pos (pos + u.length) (literalRegions pos u) := by
  fun_induction literalRegions pos u with
  | case1 pos =>
      intro front back _ _
      exact .nil
  | case2 pos c rest hq n hn ih =>
      intro front back htext hpos
      obtain ⟨parts, after, rfl, rfl, hparts⟩ := Token.exists_parts_of_literalLength? hn
      -- the literal, and what follows it
      have hliteral : Literal.WellFormed ⟨c, parts⟩ := ⟨hq, hparts⟩
      have hsplit : c :: (parts.flatMap LiteralPart.text ++ c :: after)
          = Literal.text ⟨c, parts⟩ ++ after := by simp [Literal.text]
      have hlength : (Literal.text ⟨c, parts⟩).length
          = (parts.flatMap LiteralPart.text).length + 1 + 1 := by simp [Literal.text]
      have hdrop : (parts.flatMap LiteralPart.text ++ c :: after).drop
          ((parts.flatMap LiteralPart.text).length + 1) = after := by
        rw [List.append_cons]
        exact List.drop_left' (by simp)
      rw [hsplit, List.append_assoc] at htext
      rw [hdrop] at ih ⊢
      rw [hsplit, ← hlength, List.length_append]
      rw [← hlength] at ih
      have hread := Region.ReadFrom.literal hliteral htext
      rw [hpos] at hread
      have hfirst : RegionsIn t pos (pos + (Literal.text ⟨c, parts⟩).length)
          [⟨.literal, pos, pos + (Literal.text ⟨c, parts⟩).length⟩] :=
        .singleton hread le_rfl le_rfl
      have hrest := @ih (front ++ Literal.text ⟨c, parts⟩) back (by simp [htext]) (by simp [hpos])
      exact hfirst.append (hrest.mono (by omega) (by omega)) (by omega) (by omega)
  | case3 pos c rest hq hn =>
      intro front back _ _
      exact .nil
  | case4 pos c rest hq ih =>
      intro front back htext hpos
      have hrest := @ih (front ++ [c]) back (by simp [htext]) (by simp [hpos])
      refine hrest.mono (by omega) ?_
      rw [List.length_cons]
      omega

/-- The regions of a unit of the grammar. -/
theorem regionsIn_part {t front after : Text} {p : PreludePart} {depth : Nat}
    (h : p.WellFormed depth after) (htext : t = front ++ (p.text ++ after)) :
    RegionsIn t front.length (front.length + p.text.length)
      (Token.regions front.length ⟨p.kind, p.text⟩) := by
  cases p with
  | literal l => exact .singleton (.literal h htext) le_rfl le_rfl
  | interpolation i => exact regionsIn_literalRegions _ htext rfl
  | blockComment u =>
      have hlength : (PreludePart.blockComment u).text.length = u.length + 4 := by
        simp [PreludePart.text]
      have hread : Region.ReadFrom t ⟨.blockComment, front.length, front.length + (u.length + 4)⟩ :=
        @Region.ReadFrom.blockComment t front u after h (by simp [htext, PreludePart.text])
      rw [← hlength] at hread
      exact .singleton hread le_rfl le_rfl
  | lineComment u =>
      -- the text of the comment with its line feed, or without one at the end of the text
      obtain ⟨v, tail, hu, hv, htail, hafter⟩ : ∃ v tail, u = v ++ tail ∧ Ascii.lf ∉ v ∧
          (tail = [] ∨ tail = [Ascii.lf]) ∧ ∀ c ∈ (tail ++ after).head?, c = Ascii.lf := by
        obtain ⟨-, ⟨v, rfl, hv⟩ | ⟨hu, rfl⟩⟩ := h
        · exact ⟨v, [Ascii.lf], rfl, hv, Or.inr rfl, by simp⟩
        · exact ⟨u, [], by simp, hu, Or.inl rfl, by simp⟩
      have hread : Region.ReadFrom t ⟨.lineComment, front.length, front.length + (v.length + 2)⟩ :=
        .lineComment hv hafter (by simp [htext, PreludePart.text, hu])
      have hline : ((PreludePart.lineComment u).text.takeWhile (· != Ascii.lf)).length
          = v.length + 2 := by
        have hbytes : ∀ c ∈ Ascii.slash :: Ascii.slash :: v, (c != Ascii.lf) = true := by
          intro c hc
          rw [bne_iff_ne]
          rintro rfl
          simp only [List.mem_cons, hv, or_false] at hc
          exact absurd hc (by decide)
        have hsplit : (PreludePart.lineComment u).text
            = (Ascii.slash :: Ascii.slash :: v) ++ tail := by simp [PreludePart.text, hu]
        rw [hsplit, List.takeWhile_append_of_pos hbytes]
        rcases htail with rfl | rfl
        · simp
        · simp
      rw [Token.regions, PreludePart.kind, hline]
      refine .singleton hread le_rfl ?_
      simp only [PreludePart.text, hu, List.length_cons, List.length_append]
      omega
  | opening c => exact .nil
  | closing c => exact .nil
  | byte c =>
      have hnone : Token.regions front.length ⟨(PreludePart.byte c).kind, [c]⟩ = [] := by
        by_cases hc : Ascii.isSpace c = true
        · simp [Token.regions, PreludePart.kind, hc]
        · simp [Token.regions, PreludePart.kind, hc]
      rw [PreludePart.text, hnone]
      exact .nil

/-- The regions of a row of tokens. -/
theorem regionsIn_rowRegions {t : Text} {ks : List Token} : ∀ {depth : Nat} {front u : Text},
    t = front ++ u → (tokenize depth u).tokens = ks →
      RegionsIn t front.length t.length (Token.rowRegions front.length ks) := by
  induction ks with
  | nil =>
      intro depth front u _ _
      exact .nil
  | cons k ks ih =>
      intro depth front u htext hks
      -- what follows the token starts at its end
      have hrest : ∀ {depth' : Nat} {after : Text}, u = k.text ++ after →
          (tokenize depth' after).tokens = ks →
          RegionsIn t (front.length + k.text.length) t.length
            (Token.rowRegions (front.length + k.text.length) ks) ∧
          front.length + k.text.length ≤ t.length := by
        intro depth' after hu hafter
        have hsplit : t = (front ++ k.text) ++ after := by simp [htext, hu]
        have hregions := ih hsplit hafter
        rw [List.length_append] at hregions
        refine ⟨hregions, ?_⟩
        rw [hsplit, List.length_append, List.length_append]
        omega
      rw [Token.rowRegions]
      rcases tokenize_cases hks with ⟨-, hmark, -, -, after, hu, hafter⟩ |
        ⟨p, after, hp, hu, rfl, hafter⟩
      · obtain ⟨hregions, -⟩ := hrest hu hafter
        have hnone : k.regions front.length = [] := by
          unfold Token.regions
          cases hkind : k.kind <;> rw [hkind] at hmark <;> first | rfl | cases hmark
        rw [hnone, List.nil_append]
        exact hregions.mono (by omega) le_rfl
      · obtain ⟨hregions, hle⟩ := hrest hu hafter
        have hsplit : t = front ++ (p.text ++ after) := by rw [htext, hu]
        exact (regionsIn_part hp hsplit).append hregions (by omega) hle

/-- **The literals and comments of a text are spelt in it, one behind the other.** -/
theorem regionsIn_regions (t : Text) : RegionsIn t 0 t.length (regions t) :=
  @regionsIn_rowRegions t _ 0 [] t rfl rfl

end StyleIndex
