import Mathlib.Data.List.Forall2
import SqlStatement.Proofs.Injection
import SqlStatement.Proofs.Scanning
import SqlStatement.Proofs.Veiling

/-!
# Markers and veils

A pattern is matched with markers in place of the subqueries. A marker is four
tokens where the veil has one, but no step goes on from inside a marker or in
front of one, so the same choices are taken behind markers and behind veils.
-/
namespace SqlStatement
open Token

/-- The piece that an item is behind a veil. -/
def Item.veiled : Item → Piece
  | plain p => p
  | query _ content => .literal content.groupText

theorem Nesting.map_veiled_items (n : Nesting) (next : Nat) :
    (n.items next).map Item.veiled = n.veiled := by
  induction n generalizing next with
  | done => rfl
  | piece p rest ih => rw [items, List.map_cons, ih, veiled, Item.veiled]
  | group inner rest ih₁ ih₂ =>
      rw [items, veiled]
      split
      · rw [List.map_cons, ih₂, Item.veiled]
      · rw [List.map_cons, List.map_append, List.map_cons, ih₁, ih₂, Item.veiled, Item.veiled]

/-- Items, their tokens with markers, and their tokens behind veils. -/
inductive Marks : List Item → List Token → List Token → Prop
  | nil : Marks [] [] []
  | token {its : List Item} {ms vs : List Token} (t : Token) (h : Marks its ms vs) :
      Marks (t.pieces.map .plain ++ its) (t :: ms) (t :: vs)
  | query {its : List Item} {ms vs : List Token} (number : Nat) (content : Nesting)
      (h : Marks its ms vs) :
      Marks (.query number content :: its)
        (.symbol '(' :: .symbol '#' :: .word ('s' :: 'u' :: 'b' :: Text.ofNat number) ::
          .symbol ')' :: ms)
        (.quoted content.groupText :: vs)

namespace Marks

theorem textOf_marked {its : List Item} {ms vs : List Token} (h : Marks its ms vs) :
    textOf ms = Piece.textOf (its.flatMap (Item.pieces 0)) := by
  induction h with
  | nil => rfl
  | token t _ ih =>
      rw [textOf_cons, ih, List.flatMap_append, Piece.textOf_append, List.flatMap_map,
        ← textOf_pieces]
      congr 2
      simp
  | query number content _ ih =>
      simp [ih, Item.pieces, Subquery.marker, text, Piece.text, Piece.textOf_map_char]

theorem textOf_veiled {its : List Item} {ms vs : List Token} (h : Marks its ms vs) :
    textOf vs = Piece.textOf (its.map Item.veiled) := by
  induction h with
  | nil => rfl
  | token t _ ih =>
      rw [textOf_cons, ih, List.map_append, Piece.textOf_append, List.map_map, ← textOf_pieces]
      congr 2
      simp [Function.comp_def, Item.veiled]
  | query number content _ ih => rw [textOf_cons, ih, List.map_cons, Piece.textOf_cons]; rfl

theorem append {its its' : List Item} {ms vs ms' vs' : List Token} (h : Marks its ms vs)
    (h' : Marks its' ms' vs') : Marks (its ++ its') (ms ++ ms') (vs ++ vs') := by
  induction h with
  | nil => exact h'
  | token t _ ih =>
      rw [List.append_assoc]
      exact .token t ih
  | query number content _ ih => exact .query number content ih

theorem of_tokens (ts : List Token) : Marks ((piecesOf ts).map .plain) ts ts := by
  induction ts with
  | nil => exact .nil
  | cons t ts ih =>
      rw [piecesOf_cons, List.map_append]
      exact .token t ih

end Marks

namespace Token

/-- A piece in front of a token joins it or is a token of its own. -/
theorem attach_singleton (p : Piece) (t : Token) :
    (∃ t', attach p [t] = [t'] ∧ t'.pieces = p :: t.pieces) ∨
      ∃ t', attach p [t] = [t', t] ∧ t'.pieces = [p] := by
  rcases attach_cases p [t] with ha | ⟨c, w, us, rfl, he, ha⟩ | ⟨c, b, us, rfl, he, ha⟩
  · obtain ⟨t', ht, hp⟩ := attach_nil p
    exact .inr ⟨t', by rw [ha, ht]; rfl, hp⟩
  · cases he
    exact .inl ⟨_, ha, rfl⟩
  · cases he
    exact .inl ⟨_, ha, rfl⟩

end Token

theorem Marks.attach {its : List Item} {ms vs : List Token} (p : Piece) (h : Marks its ms vs) :
    Marks (.plain p :: its) (Token.attach p ms) (Token.attach p vs) := by
  have alone {its : List Item} {ms vs : List Token} (h : Marks its ms vs)
      (hm : standsApart p ms) (hv : standsApart p vs) :
      Marks (.plain p :: its) (Token.attach p ms) (Token.attach p vs) := by
    obtain ⟨t, ht, hp⟩ := attach_nil p
    rw [hm, hv, ht]
    have := Marks.token t h
    rwa [hp] at this
  cases h with
  | nil => exact alone .nil (standsApart_nil p) (standsApart_nil p)
  | @token its ms vs t h =>
      have grow (us : List Token) : Token.attach p (t :: us) = Token.attach p [t] ++ us :=
        attach_append p us (List.cons_ne_nil t [])
      rw [grow ms, grow vs]
      rcases attach_singleton p t with ⟨t', ht, hp⟩ | ⟨t', ht, hp⟩
      · have := Marks.token t' h
        rw [hp] at this
        rwa [ht]
      · have := Marks.token t' (Marks.token t h)
        rw [hp] at this
        rwa [ht]
  | query number content h =>
      refine alone (.query number content h) ?_ ?_
      · exact standsApart_of_head p (by simp [isWord, isSpace])
      · exact standsApart_of_head p (by simp [isWord, isSpace])

theorem Marks.items (its : List Item) :
    Marks its (ofPieces (its.flatMap (Item.pieces 0))) (ofPieces (its.map Item.veiled)) := by
  induction its with
  | nil => exact .nil
  | cons it its ih =>
      cases it with
      | plain p => exact ih.attach p
      | query number content =>
          have closing : ∀ t, (ofPieces (.char ')' :: its.flatMap (Item.pieces 0))).head? = some t →
              t.isWord = false := by
            intro t ht
            rw [ofPieces_symbol_cons _ (by decide) (by decide)] at ht
            cases ht
            rfl
          have marked : ofPieces ((Item.query number content :: its).flatMap (Item.pieces 0)) =
              .symbol '(' :: .symbol '#' :: .word ('s' :: 'u' :: 'b' :: Text.ofNat number) ::
                .symbol ')' :: ofPieces (its.flatMap (Item.pieces 0)) := by
            rw [List.flatMap_cons, Item.pieces, List.cons_append, List.append_assoc,
              List.singleton_append, ofPieces_symbol_cons _ (by decide) (by decide),
              Subquery.marker, List.map_cons, List.cons_append,
              ofPieces_symbol_cons _ (by decide) (by decide),
              ofPieces_word (by simp) Subquery.isWordChar_of_mem_marker closing,
              ofPieces_symbol_cons _ (by decide) (by decide)]
          rw [marked]
          exact .query number content ih

/-- Choices whose parts are the same items, with markers and behind veils. Only a part that runs to
the end may have unclosed quotes. -/
def SameTaken (its : List Item) (c c' : Choice) : Prop :=
  ∃ before taken after, its = before ++ taken ++ after ∧ Marks taken c.taken c'.taken ∧
    (after = [] ∨ ∀ t ∈ c'.taken, t.isClosed = true)

/-- The routes through steps that are taken behind markers and behind veils. -/
def Agrees (its : List Item) : Option (List Choice) → Option (List Choice) → Prop :=
  Option.Rel (List.Forall₂ (SameTaken its))

/-- Two places behind the same items, with no unclosed quote in front of them. -/
def Behind (its : List Item) (ms vs us ws : List Token) : Prop :=
  ∃ i its' pm pv, its = i ++ its' ∧ ms = pm ++ us ∧ vs = pv ++ ws ∧ Marks i pm pv ∧
    (∀ t ∈ pv, t.isClosed = true) ∧ Marks its' us ws

theorem Behind.refl {its : List Item} {ms vs : List Token} (h : Marks its ms vs) :
    Behind its ms vs ms vs := ⟨[], its, [], [], rfl, rfl, rfl, .nil, by simp, h⟩

theorem Behind.cons {its : List Item} {ms vs us ws : List Token} {t : Token}
    (ht : t.isClosed = true) (h : Behind its ms vs us ws) :
    Behind (t.pieces.map .plain ++ its) (t :: ms) (t :: vs) us ws := by
  obtain ⟨i, its', pm, pv, rfl, rfl, rfl, hi, hc, hm⟩ := h
  exact ⟨t.pieces.map .plain ++ i, its', t :: pm, t :: pv, by simp, rfl, rfl, .token t hi,
    by simpa [ht] using hc, hm⟩

theorem Behind.trans {its : List Item} {ms vs us ws : List Token} (h : Behind its ms vs us ws)
    {us' ws' : List Token} (h' : ∀ its', Marks its' us ws → Behind its' us ws us' ws') :
    Behind its ms vs us' ws' := by
  obtain ⟨i, its', pm, pv, rfl, rfl, rfl, hi, hc, hm⟩ := h
  obtain ⟨j, its'', qm, qv, rfl, rfl, rfl, hj, hc', hm'⟩ := h' its' hm
  exact ⟨i ++ j, its'', pm ++ qm, pv ++ qv, by simp, by simp, by simp, hi.append hj,
    fun t ht => (List.mem_append.mp ht).elim (hc t) (hc' t), hm'⟩

theorem Agrees.mono {its its' before : List Item} {r r' : Option (List Choice)}
    (hi : its = before ++ its') (h : Agrees its' r r') : Agrees its r r' := by
  cases h with
  | none => exact .none
  | some h =>
      refine .some (h.imp fun c c' hc => ?_)
      obtain ⟨b, taken, after, rfl, hm⟩ := hc
      exact ⟨before ++ b, taken, after, by rw [hi]; simp, hm⟩

theorem Agrees.or {its : List Item} {r r' q q' : Option (List Choice)} (hr : Agrees its r r')
    (hq : Agrees its q q') : Agrees its (r.or q) (r'.or q') := by
  cases hr with
  | none => exact hq
  | some h => exact .some h

theorem findSome?_cons_or {α β : Type} (f : α → Option β) (x : α) (xs : List α) :
    (x :: xs).findSome? f = (f x).or (xs.findSome? f) := by
  rw [List.findSome?_cons]
  cases f x <;> rfl

theorem Agrees.onward {its : List Item} {steps : List Step} {c c' : Choice}
    (hc : SameTaken its c c') (h : Agrees its (route steps c.next) (route steps c'.next)) :
    Agrees its (onward steps c) (onward steps c') := by
  unfold SqlStatement.onward
  generalize route steps c.next = r at h
  generalize route steps c'.next = r' at h
  cases h with
  | none => exact .none
  | some h => exact .some (.cons hc h)

theorem Agrees.findSome? {its : List Item} {steps : List Step} {cs cs' : List Choice}
    (h : List.Forall₂ (fun c c' => SameTaken its c c' ∧
      Agrees its (route steps c.next) (route steps c'.next)) cs cs') :
    Agrees its (cs.findSome? (SqlStatement.onward steps))
      (cs'.findSome? (SqlStatement.onward steps)) := by
  induction h with
  | nil => exact .none
  | cons hc _ ih =>
      rw [findSome?_cons_or, findSome?_cons_or]
      exact (Agrees.onward hc.1 hc.2).or ih

theorem sameTaken_mk {its i its' : List Item} {pm pv us ws : List Token} (hi : its = i ++ its')
    (hm : Marks i pm pv) (hc : ∀ t ∈ pv, t.isClosed = true) (next next' : List Token)
    (width width' : Nat) :
    SameTaken its ⟨pm ++ us, us, next, width⟩ ⟨pv ++ ws, ws, next', width'⟩ := by
  refine ⟨[], i, its', by rw [hi, List.nil_append], ?_⟩
  rw [Choice.taken_eq, Choice.taken_eq]
  exact ⟨hm, .inr hc⟩

theorem sameTaken_skip {its : List Item} (ms vs : List Token) :
    SameTaken its (.skip ms) (.skip vs) := by
  refine ⟨[], [], its, rfl, ?_⟩
  rw [Choice.taken_skip, Choice.taken_skip]
  exact ⟨.nil, .inr (by simp)⟩

theorem marks_after? {its : List Item} {ms vs : List Token} (p : Phrase) (h : Marks its ms vs) :
    Option.Rel (Behind its ms vs) (p.after? ms) (p.after? vs) := by
  induction p generalizing its ms vs with
  | nil => exact .none
  | cons k ks ih =>
      cases h with
      | nil => cases ks <;> exact .none
      | query number content h => cases ks <;> exact .none
      | @token its ms vs t h =>
          cases t with
          | word w =>
              cases ks with
              | nil =>
                  simp only [Phrase.after?]
                  split
                  · exact .some ((Behind.refl h).cons rfl)
                  · exact .none
              | cons k' ks =>
                  cases h with
                  | nil | query => exact .none
                  | @token its ms vs t h =>
                      cases t with
                      | space b =>
                          simp only [Phrase.after?]
                          split
                          · have rest := ih h
                            generalize Phrase.after? (k' :: ks) ms = r at rest
                            generalize Phrase.after? (k' :: ks) vs = r' at rest
                            cases rest with
                            | none => exact .none
                            | some hb => exact .some ((hb.cons rfl).cons rfl)
                          · exact .none
                      | word | quoted | symbol | unterminated => exact .none
          | space | quoted | symbol | unterminated => cases ks <;> exact .none

theorem marks_afterAny? {its : List Item} {ms vs : List Token} (phrases : List Phrase)
    (h : Marks its ms vs) :
    Option.Rel (Behind its ms vs) (Phrase.afterAny? phrases ms) (Phrase.afterAny? phrases vs) := by
  induction phrases with
  | nil => exact .none
  | cons p phrases ih =>
      rw [Phrase.afterAny?, Phrase.afterAny?, findSome?_cons_or, findSome?_cons_or]
      have first := marks_after? p h
      generalize p.after? ms = r at first
      generalize p.after? vs = r' at first
      cases first with
      | none => exact ih
      | some hb => exact .some hb

theorem marks_skipSpace {its : List Item} {ms vs : List Token} (h : Marks its ms vs) :
    Behind its ms vs (skipSpace ms) (skipSpace vs) := by
  cases h with
  | nil => exact .refl .nil
  | query number content h => exact .refl (.query number content h)
  | token t h =>
      cases t with
      | space b => exact (Behind.refl h).cons rfl
      | word | quoted | symbol | unterminated => exact .refl (.token _ h)

theorem marks_atEnd {its : List Item} {ms vs : List Token} (h : Marks its ms vs) :
    AtEnd ms ↔ AtEnd vs := by
  cases h with
  | nil => exact Iff.rfl
  | token t h => simp [AtEnd]
  | query number content h => simp [AtEnd]

theorem marks_startsAny {its : List Item} {ms vs : List Token} (phrases : List Phrase)
    (h : Marks its ms vs) : Phrase.startsAny phrases ms = Phrase.startsAny phrases vs := by
  have := marks_afterAny? phrases h
  rw [Phrase.startsAny, Phrase.startsAny]
  generalize Phrase.afterAny? phrases ms = r at this
  generalize Phrase.afterAny? phrases vs = r' at this
  cases this <;> rfl

/-- No phrase begins with a word that a marker could be. -/
def Unmarked (phrases : List Phrase) : Prop :=
  ∀ p ∈ phrases, ∀ k, p.head? = some k → ¬['S', 'U', 'B'] <+: k.toList

theorem startsAny_marker {phrases : List Phrase} (h : Unmarked phrases) (number : Nat)
    (ts : List Token) :
    Phrase.startsAny phrases (.word ('s' :: 'u' :: 'b' :: Text.ofNat number) :: ts) = false := by
  by_contra hs
  rw [Bool.not_eq_false, Phrase.startsAny_iff] at hs
  obtain ⟨p, hp, t, ht, hpre⟩ := hs
  obtain ⟨k, ks, w, us, rfl, rfl, hk⟩ := ht.head
  rw [List.cons_prefix_cons] at hpre
  obtain ⟨hw, -⟩ := hpre
  cases hw
  refine h _ hp k rfl ?_
  rw [Text.isKeyword, beq_iff_eq] at hk
  rw [← hk]
  exact ⟨Text.upper (Text.ofNat number), rfl⟩

theorem startsAny_of_not_word {phrases : List Phrase} {t : Token} (ts : List Token)
    (h : t.isWord = false) : Phrase.startsAny phrases (t :: ts) = false := by
  by_contra hs
  rw [Bool.not_eq_false, Phrase.startsAny_iff] at hs
  obtain ⟨p, hp, t', ht, hpre⟩ := hs
  obtain ⟨k, ks, w, us, rfl, rfl, hk⟩ := ht.head
  rw [List.cons_prefix_cons] at hpre
  rw [← hpre.1] at h
  simp [isWord] at h

/-- A value is taken up to the same place behind markers and behind veils. -/
theorem agrees_value {steps : List Step} (ht : Trailing steps) (hu : Unmarked (phrasesOf steps))
    (hs : ∀ its ms vs, Marks its ms vs → Agrees its (route steps ms) (route steps vs))
    {its i its' : List Item} {pm pv ms vs : List Token} (hi : its = i ++ its')
    (hp : Marks i pm pv) (hpv : ∀ t ∈ pv, t.isClosed = true) (h : Marks its' ms vs) (w w' : Nat) :
    Agrees its ((Step.valueChoices (pm ++ ms) w ms).findSome? (onward steps))
      ((Step.valueChoices (pv ++ vs) w' vs).findSome? (onward steps)) := by
  have here {i its' : List Item} {pm pv ms vs : List Token} (hi : its = i ++ its')
      (hp : Marks i pm pv) (hpv : ∀ t ∈ pv, t.isClosed = true) (h : Marks its' ms vs)
      (w w' : Nat) :
      Agrees its (onward steps ⟨pm ++ ms, ms, ms, w⟩) (onward steps ⟨pv ++ vs, vs, vs, w'⟩) :=
    Agrees.onward (sameTaken_mk hi hp hpv ms vs w w') ((hs _ _ _ h).mono hi)
  have nowhere (c : Choice) {t : Token} {ts : List Token} (hn : c.next = t :: ts)
      (ha : Phrase.startsAny (phrasesOf steps) (t :: ts) = false) (he : t ≠ .symbol ';') :
      onward steps c = none := by
    rw [onward, hn, ht.route_eq_none ha]
    · rfl
    · exact fun ha => he (ha t rfl)
  induction h generalizing i pm pv w w' with
  | nil =>
      rw [Step.valueChoices, Step.valueChoices, List.findSome?_singleton,
        List.findSome?_singleton]
      exact here hi hp hpv .nil w w'
  | @token its' ms vs t h ih =>
      by_cases hc : t.isClosed = true
      · have grow (start ts : List Token) (w : Nat) :
            Step.valueChoices start w (t :: ts) =
              ⟨start, t :: ts, t :: ts, w⟩ :: Step.valueChoices start (w + 1) ts := by
          cases t with
          | unterminated q => simp [isClosed] at hc
          | _ => rfl
        rw [grow, grow, findSome?_cons_or, findSome?_cons_or]
        refine (here hi hp hpv (.token t h) w w').or ?_
        rw [← List.append_assoc] at hi
        have rest := ih hi (hp.append (by simpa using Marks.token t .nil))
          (fun u hu => (List.mem_append.mp hu).elim (hpv u) fun hu =>
            (List.mem_singleton.mp hu) ▸ hc) (w + 1) (w' + 1)
        simpa using rest
      · cases t with
        | unterminated q =>
            rw [Step.valueChoices, Step.valueChoices, List.findSome?_singleton,
              List.findSome?_singleton]
            exact here hi hp hpv (.token _ h) w w'
        | _ => exact absurd rfl hc
  | @query its' ms vs number content h ih =>
      rw [← List.singleton_append, ← List.append_assoc] at hi
      have rest := ih hi (hp.append (.query number content .nil))
        (fun u hu => (List.mem_append.mp hu).elim (hpv u) fun hu =>
          (List.mem_singleton.mp hu) ▸ rfl) (w + 1 + 1 + 1 + 1) (w' + 1)
      rw [List.append_assoc, List.append_assoc] at rest
      simp only [Step.valueChoices, List.findSome?_cons]
      rw [nowhere _ rfl (startsAny_of_not_word _ rfl) (by simp),
        nowhere _ rfl (startsAny_of_not_word _ rfl) (by simp),
        nowhere _ rfl (startsAny_marker hu number _) (by simp),
        nowhere _ rfl (startsAny_of_not_word _ rfl) (by simp),
        nowhere _ rfl (startsAny_of_not_word _ rfl) (by simp)]
      exact rest

/-- Steps that take the same choices behind markers and behind veils. -/
def Blind (steps : List Step) : Prop :=
  ∀ its ms vs, Marks its ms vs → Agrees its (route steps ms) (route steps vs)

theorem Blind.behind {steps : List Step} (h : Blind steps) {its : List Item}
    {ms vs us ws : List Token} (hb : Behind its ms vs us ws) :
    Agrees its (route steps us) (route steps ws) := by
  obtain ⟨i, its', pm, pv, hi, -, -, -, -, hm⟩ := hb
  exact (h its' us ws hm).mono hi

theorem Behind.sameTaken {its : List Item} {ms vs us ws : List Token}
    (hb : Behind its ms vs us ws) (next next' : List Token) (width width' : Nat) :
    SameTaken its ⟨ms, us, next, width⟩ ⟨vs, ws, next', width'⟩ := by
  obtain ⟨i, its', pm, pv, hi, rfl, rfl, hp, hc, -⟩ := hb
  exact sameTaken_mk hi hp hc next next' width width'

theorem Blind.skip {steps : List Step} (h : Blind steps) {step : Step} {its : List Item}
    {ms vs : List Token} (hm : Marks its ms vs) (hc : step.choices ms = [.skip ms])
    (hc' : step.choices vs = [.skip vs]) :
    Agrees its (route (step :: steps) ms) (route (step :: steps) vs) := by
  rw [route_cons, route_cons, hc, hc', List.findSome?_singleton, List.findSome?_singleton]
  exact .onward (sameTaken_skip ms vs) (h its ms vs hm)

theorem blind_finish : Blind [.finish] := by
  intro its ms vs h
  by_cases he : AtEnd ms
  · rw [route_finish_of_atEnd he, route_finish_of_atEnd ((marks_atEnd h).mp he)]
    exact .some (.cons (sameTaken_skip ms vs) .nil)
  · rw [route_finish_of_not he, route_finish_of_not (mt (marks_atEnd h).mpr he)]
    exact .none

theorem blind_options (key : String) (keywords : List Phrase) :
    Blind [.options key keywords, .finish] := by
  intro its ms vs h
  have same := marks_startsAny keywords h
  cases ho : Phrase.startsAny keywords ms with
  | true =>
      rw [route_options ho, route_options (same.symm.trans ho)]
      refine .some (.cons ⟨[], its, [], by simp, ?_, .inl rfl⟩
        (.cons (sameTaken_skip [] []) .nil))
      simpa [Choice.taken] using h
  | false =>
      exact blind_finish.skip h (choices_options_of_not ho)
        (choices_options_of_not (same.symm.trans ho))

theorem Trailing.blind {steps : List Step} (h : Trailing steps)
    (hu : Unmarked (phrasesOf steps)) : Blind steps := by
  induction h with
  | finish => exact blind_finish
  | options key keywords => exact blind_options key keywords
  | @clause key keyword steps hf ht ih =>
      have hu' : Unmarked (phrasesOf steps) := fun p hp => hu p (by simp [phrasesOf_clause, hp])
      intro its ms vs h
      have found := marks_after? keyword h
      cases hk : keyword.after? ms with
      | none =>
          rw [hk] at found
          cases hk' : keyword.after? vs with
          | none =>
              exact (ih hu').skip h (choices_clause_of_none hk) (choices_clause_of_none hk')
          | some ws =>
              rw [hk'] at found
              cases found
      | some us =>
          rw [hk] at found
          cases hk' : keyword.after? vs with
          | none =>
              rw [hk'] at found
              cases found
          | some ws =>
              rw [hk'] at found
              cases found with
              | some hb =>
                  obtain ⟨t, hst, rfl⟩ := Phrase.after?_eq_some hk
                  obtain ⟨t', hst', rfl⟩ := Phrase.after?_eq_some hk'
                  rw [(Trailing.clause key hf ht).route_clause_of_spells hst,
                    (Trailing.clause key hf ht).route_clause_of_spells hst']
                  obtain ⟨i, its', pm, pv, hi, -, -, -, -, hm⟩ := hb.trans fun _ hm =>
                    marks_skipSpace hm
                  exact (agrees_value ht hu' (ih hu') (i := []) rfl .nil (by simp) hm _ _).mono hi

theorem Trailing.blind_value {steps : List Step} (h : Trailing steps)
    (hu : Unmarked (phrasesOf steps)) (key : String) : Blind (.value key :: steps) := by
  intro its ms vs hm
  exact agrees_value h hu (h.blind hu) (i := []) rfl .nil (by simp) hm 0 0

theorem ends_nil (phrases : List Phrase) (fuel : Nat) (most : Option Nat) :
    Step.modifierEnds.ends phrases fuel most [] = [] := by
  cases fuel with
  | zero => rfl
  | succ fuel => rcases most with _ | _ | most <;> rfl

theorem ends_of_not_space (phrases : List Phrase) (fuel : Nat) (most : Option Nat) {t : Token}
    (ts : List Token) (h : t.isSpace = false) :
    Step.modifierEnds.ends phrases fuel most (t :: ts) = [] := by
  cases fuel with
  | zero => rfl
  | succ fuel =>
      cases t with
      | space b => simp [isSpace] at h
      | _ => rcases most with _ | _ | most <;> rfl

theorem Behind.after {its i its' : List Item} {ms vs pm pv us ws us' ws' : List Token}
    (hi : its = i ++ its') (hm : ms = pm ++ us) (hv : vs = pv ++ ws) (hp : Marks i pm pv)
    (hc : ∀ t ∈ pv, t.isClosed = true) (h : Behind its' us ws us' ws') :
    Behind its ms vs us' ws' := by
  obtain ⟨j, its'', qm, qv, rfl, rfl, rfl, hj, hc', h⟩ := h
  exact ⟨i ++ j, its'', pm ++ qm, pv ++ qv, by rw [hi]; simp, by rw [hm]; simp, by rw [hv]; simp,
    hp.append hj, fun t ht => (List.mem_append.mp ht).elim (hc t) (hc' t), h⟩

theorem marks_ends {its : List Item} {ms vs : List Token} (phrases : List Phrase)
    (fuel fuel' : Nat) (most : Option Nat) (h : Marks its ms vs) (hf : ms.length ≤ fuel)
    (hf' : vs.length ≤ fuel') :
    List.Forall₂ (Behind its ms vs) (Step.modifierEnds.ends phrases fuel most ms)
      (Step.modifierEnds.ends phrases fuel' most vs) := by
  induction fuel generalizing fuel' most its ms vs with
  | zero =>
      cases h with
      | nil => rw [ends_nil, ends_nil]; exact .nil
      | token | query => simp at hf
  | succ fuel ih =>
      cases h with
      | nil => rw [ends_nil, ends_nil]; exact .nil
      | query number content h =>
          rw [ends_of_not_space _ _ _ _ rfl, ends_of_not_space _ _ _ _ rfl]
          exact .nil
      | @token its ms vs t h =>
          by_cases hs : t.isSpace = true
          · cases t with
            | space b =>
                cases fuel' with
                | zero => simp at hf'
                | succ fuel' =>
                    by_cases hz : most = some 0
                    · subst hz
                      exact .nil
                    · have found := marks_afterAny? phrases h
                      simp only [Step.modifierEnds.ends]
                      generalize Phrase.afterAny? phrases ms = r at found
                      generalize Phrase.afterAny? phrases vs = r' at found
                      cases found with
                      | none => exact .nil
                      | some hb =>
                          refine .cons (hb.cons rfl) ?_
                          obtain ⟨i, its', pm, pv, rfl, rfl, rfl, hp, hc, hm⟩ := hb
                          refine (ih fuel' _ hm ?_ ?_).imp fun _ _ hb' =>
                            (Behind.after rfl rfl rfl hp hc hb').cons rfl
                          · simp only [List.length_cons, List.length_append] at hf
                            omega
                          · simp only [List.length_cons, List.length_append] at hf'
                            omega
            | _ => simp [isSpace] at hs
          · rw [ends_of_not_space _ _ _ _ (by simpa using hs),
              ends_of_not_space _ _ _ _ (by simpa using hs)]
            exact .nil

theorem Blind.modifiers {steps : List Step} (h : Blind steps) (key : String)
    (phrases : List Phrase) (most : Option Nat) :
    Blind (.modifiers key phrases most :: steps) := by
  intro its ms vs hm
  have ends : List.Forall₂ (Behind its ms vs) (ms :: Step.modifierEnds phrases most ms)
      (vs :: Step.modifierEnds phrases most vs) :=
    .cons (.refl hm) (marks_ends phrases _ _ most hm (Nat.le_refl _) (Nat.le_refl _))
  rw [route_cons, route_cons]
  simp only [Step.choices]
  refine Agrees.findSome? ?_
  rw [List.forall₂_map_left_iff, List.forall₂_map_right_iff]
  refine (List.rel_reverse ends).imp fun us ws hb => ⟨hb.sameTaken _ _ _ _, ?_⟩
  exact h.behind (hb.trans fun _ hm => marks_skipSpace hm)

theorem Blind.lead {steps : List Step} (h : Blind steps) (keywords : List Phrase) :
    Blind (.lead keywords :: steps) := by
  intro its ms vs hm
  rw [route_cons, route_cons]
  simp only [Step.choices]
  have found : Option.Rel (Behind its ms vs) (Phrase.afterAny? keywords (skipSpace ms))
      (Phrase.afterAny? keywords (skipSpace vs)) := by
    obtain ⟨i, its', pm, pv, hi, hms, hvs, hp, hc, hm'⟩ := marks_skipSpace hm
    have := marks_afterAny? keywords hm'
    generalize Phrase.afterAny? keywords (skipSpace ms) = r at this
    generalize Phrase.afterAny? keywords (skipSpace vs) = r' at this
    cases this with
    | none => exact .none
    | some hb => exact .some (hb.after hi hms hvs hp hc)
  generalize Phrase.afterAny? keywords (skipSpace ms) = r at found
  generalize Phrase.afterAny? keywords (skipSpace vs) = r' at found
  cases found with
  | none => exact .none
  | @some us ws hb =>
      refine Agrees.findSome? (.cons ⟨?_, h.behind hb⟩ .nil)
      refine ⟨[], [], its, rfl, ?_⟩
      simpa [Choice.taken] using Marks.nil

end SqlStatement
