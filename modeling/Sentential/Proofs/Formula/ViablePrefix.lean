import Sentential.Proofs.Formula.Reading
import Sentential.Proofs.Token.Positions

/-!
# The token at which reading fails

Wherever the reader has come to, the tokens it has read begin a formula: an operand, if one is due,
and a closing bracket for each open one end it within the limit. A token that the reader refuses
goes on from there in no formula, since every formula that begins alike leads it to the same place.
So the token that an error names is the first one that is impossible.

* `Reader.exists_steps_completion`: reading can end from every state.
* `Reader.not_prefix_of_refuses`: no formula has a refused token where it was refused.
* `IsAccepted`: the tokens of a formula that is not nested too deeply, with the mark of the end.
* `PointsAtEarliest`: what an error says about the token it points at.
* `parseRaw_error_earliest`: every error of a text points at the earliest impossible token.
-/

namespace Sentential

namespace Formula.Reader

variable {limit stop : Nat} {s : State} {ts us : List TokenKind}

theorem steps_singleton (limit : Nat) (s : State) (t : TokenKind) :
    steps limit s [t] = step limit s t := by
  simp [steps]

/-- The reader goes over some tokens by going over the first ones and then over the others. -/
theorem steps_append_eq_ok_iff {s' : State} : steps limit s (ts ++ us) = .ok s' ↔
    ∃ next, steps limit s ts = .ok next ∧ steps limit next us = .ok s' := by
  cases hts : steps limit s ts with
  | ok next => simp [steps_append hts]
  | error fault =>
    rw [steps] at hts
    rw [steps, List.foldlM_append, hts]
    simp [bind, Except.bind]

/-! ## Ending from any state -/

/-- Tokens after which the reading ends: an operand, if one is due, and the closing brackets. -/
def completion : State → List TokenKind
  | .operand _ outer => .top :: List.replicate outer.length .closing
  | .operator _ _ outer => List.replicate outer.length .closing

theorem isLegal_of_mem_completion {t : TokenKind} (h : t ∈ completion s) : t.isLegal = true := by
  cases s with
  | operand frame outer =>
    rcases List.mem_cons.1 h with rfl | h
    · rfl
    · rw [List.eq_of_mem_replicate h]
      rfl
  | operator f pending outer =>
    rw [List.eq_of_mem_replicate h]
    rfl

theorem exists_steps_closings (limit : Nat) (f : Formula) (pending : List Pending)
    (outer : List Frame) : ∃ g pending',
      steps limit (.operator f pending outer) (List.replicate outer.length .closing) =
        .ok (.operator g pending' []) := by
  induction outer generalizing f pending with
  | nil => exact ⟨f, pending, rfl⟩
  | cons frame outer ih =>
    have hclosing : step limit (.operator f pending (frame :: outer)) .closing =
        .ok (frame.complete outer (.group (join 0 f pending).1)) := rfl
    rw [List.length_cons, List.replicate_succ, steps_cons hclosing]
    exact ih _ _

/-- Reading can end from every state, without another bracket or negation. -/
theorem exists_steps_completion (limit : Nat) (s : State) :
    ∃ s' f, steps limit s (completion s) = .ok s' ∧ finish s' = .ok f := by
  cases s with
  | operator f pending outer =>
    obtain ⟨g, pending', hsteps⟩ := exists_steps_closings limit f pending outer
    exact ⟨_, _, hsteps, rfl⟩
  | operand frame outer =>
    have htop : step limit (.operand frame outer) .top = .ok (frame.complete outer .top) := rfl
    obtain ⟨g, pending', hsteps⟩ :=
      exists_steps_closings limit (negated frame.negations .top) frame.pending outer
    exact ⟨_, _, (steps_cons htop).trans hsteps, rfl⟩

/-- The tokens that the reader has gone over begin a formula that is not nested too deeply. -/
theorem exists_derives_of_steps (h : steps limit .start ts = .ok s) :
    ∃ f, Derives (.chain .iff) (ts ++ completion s) f ∧ f.nesting ≤ limit := by
  obtain ⟨s', f, hsteps, hfinish⟩ := exists_steps_completion limit s
  exact ⟨f, (exists_steps_iff limit).1 ⟨s', (steps_append h).trans hsteps, hfinish⟩⟩

/-! ## Refused tokens -/

/-- The reader cannot go on with the token `t`, nor stop there if `t` marks the end. -/
def Refuses (limit : Nat) (s : State) (t : TokenKind) : Prop :=
  (∃ fault, step limit s t = .error fault) ∧ (t = .finish → ∃ fault, finish s = .error fault)

/-- No formula that begins with the tokens read goes on with a token that is refused there. -/
theorem not_prefix_of_refuses {t : TokenKind} {f : Formula} (h : steps limit .start ts = .ok s)
    (hrefuses : Refuses limit s t) (hderives : Derives (.chain .iff) us f)
    (hnesting : f.nesting ≤ limit) : ¬ ts ++ [t] <+: us ++ [.finish] := by
  obtain ⟨⟨fault, hstep⟩, hend⟩ := hrefuses
  obtain ⟨s', hsteps, hfinish⟩ := (exists_steps_iff limit).2 ⟨hderives, hnesting⟩
  intro hbegin
  rcases List.prefix_concat_iff.1 hbegin with heq | ⟨vs, rfl⟩
  · -- the refused token is the mark of the end
    obtain ⟨rfl, ht⟩ := List.append_inj' heq rfl
    obtain ⟨fault', hfault⟩ := hend (List.cons.inj ht).1
    obtain rfl := Except.ok.inj (h.symm.trans hsteps)
    cases hfault.symm.trans hfinish
  · obtain ⟨next, hnext, -⟩ := steps_append_eq_ok_iff.1 hsteps
    rw [steps_append h, steps_singleton, hstep] at hnext
    cases hnext

theorem step_illegal (limit : Nat) (s : State) (c : Char) :
    ∃ fault, step limit s (.illegal c) = .error fault := by
  rcases s with ⟨frame, outer⟩ | ⟨f, pending, _ | ⟨frame, outer⟩⟩ <;> exact ⟨_, rfl⟩

theorem step_finish (limit : Nat) (s : State) :
    ∃ fault, step limit s .finish = .error fault := by
  rcases s with ⟨frame, outer⟩ | ⟨f, pending, _ | ⟨frame, outer⟩⟩ <;> exact ⟨_, rfl⟩

/-- A token that is gone over is a step of the reader from some state. -/
theorem exists_step_of_mem {s' : State} {t : TokenKind} (h : steps limit s ts = .ok s')
    (hmem : t ∈ ts) : ∃ next next', step limit next t = .ok next' := by
  obtain ⟨before, after, rfl⟩ := List.append_of_mem hmem
  obtain ⟨next, -, hsteps⟩ := steps_append_eq_ok_iff.1 h
  rw [← List.singleton_append] at hsteps
  obtain ⟨next', hstep, -⟩ := steps_append_eq_ok_iff.1 hsteps
  exact ⟨next, next', steps_singleton limit next t ▸ hstep⟩

/-- A run that fails went over some tokens and was refused the next one, or the end. -/
theorem exists_refused_of_run {tokens : List Token} {failure : Failure}
    (hkinds : ∀ token ∈ tokens, token.kind ≠ .finish)
    (h : run limit stop s tokens = .error failure) : ∃ before token after s',
      tokens ++ [⟨.finish, stop⟩] = before ++ token :: after ∧ token.offset = failure.offset ∧
      steps limit s (before.map Token.kind) = .ok s' ∧ Refuses limit s' token.kind := by
  induction tokens generalizing s with
  | nil =>
    rw [run] at h
    cases hfinish : finish s with
    | ok f =>
      rw [hfinish] at h
      cases h
    | error fault =>
      rw [hfinish] at h
      cases h
      exact ⟨[], _, [], s, rfl, rfl, rfl, step_finish limit s, fun _ => ⟨fault, hfinish⟩⟩
  | cons token tokens ih =>
    obtain ⟨htoken, hkinds⟩ := List.forall_mem_cons.1 hkinds
    rw [run] at h
    cases hstep : step limit s token.kind with
    | error fault =>
      rw [hstep] at h
      cases h
      exact ⟨[], token, _, s, rfl, rfl, rfl, ⟨fault, hstep⟩, fun hend => absurd hend htoken⟩
    | ok next =>
      rw [hstep] at h
      obtain ⟨before, refused, after, s', hsplit, hoffset, hsteps, hrefuses⟩ := ih hkinds h
      refine ⟨token :: before, refused, after, s', ?_, hoffset, ?_, hrefuses⟩
      · rw [List.cons_append, hsplit, List.cons_append]
      · rw [List.map_cons, steps_cons hstep, hsteps]

end Formula.Reader

namespace Formula

/-! ## Errors of a text -/

/-- The tokens of a formula and the mark of the end, where at no token more brackets and negations
are active than allowed. Those of a text are accepted exactly when it is read
(`isAccepted_lex_iff`). -/
def IsAccepted (ts : List TokenKind) : Prop :=
  ∃ us f, ts = us ++ [.finish] ∧ Derives (.chain .iff) us f ∧
    ∀ mark ∈ f.marks 0, mark.2 ≤ nestingLimit

/-- A text has accepted tokens exactly when it is read. -/
theorem isAccepted_lex_iff {text : String} :
    IsAccepted ((Token.lex text).map Token.kind) ↔ ∃ f, parseRaw text = .ok f := by
  simp only [IsAccepted, Token.map_kind_lex, parseRaw_eq_ok_iff, forall_mem_marks_iff,
    Nat.zero_add]
  constructor
  · rintro ⟨us, f, heq, hf⟩
    obtain ⟨rfl, -⟩ := List.append_inj' heq rfl
    exact ⟨f, hf⟩
  · rintro ⟨f, hf⟩
    exact ⟨_, f, rfl, hf⟩

/-- The error of a text stands at a token that the reader refuses after those before it. -/
theorem exists_refused_of_parseRaw {text : String} {e : ParseError}
    (h : parseRaw text = .error e) : ∃ before token after s detail,
      Token.lex text = before ++ token :: after ∧
      Reader.steps nestingLimit .start (before.map Token.kind) = .ok s ∧
      Reader.Refuses nestingLimit s token.kind ∧ e = .atOffset text token.offset detail := by
  rw [parseRaw] at h
  cases hrun : Reader.run nestingLimit text.utf8ByteSize .start (Token.scan 0 text.toList) with
  | ok f =>
    rw [hrun] at h
    cases h
  | error failure =>
    rw [hrun] at h
    cases h
    have hkinds : ∀ token ∈ Token.scan 0 text.toList, token.kind ≠ .finish := by
      intro token hmem hfinish
      rcases Token.isLegal_of_mem_scan hmem with hlegal | ⟨c, hc⟩
      · rw [hfinish] at hlegal
        cases hlegal
      · cases hfinish.symm.trans hc
    obtain ⟨before, token, after, s, hsplit, hoffset, hsteps, hrefuses⟩ :=
      Reader.exists_refused_of_run hkinds hrun
    exact ⟨before, token, after, s, _, hsplit, hsteps, hrefuses, by rw [hoffset]⟩

/-- The tokens of a text that the reader has gone over are legal. -/
theorem isLegal_of_steps {text : String} {before after : List Token} {s : Reader.State}
    (hsplit : Token.lex text = before ++ after)
    (h : Reader.steps nestingLimit .start (before.map Token.kind) = .ok s) :
    ∀ t ∈ before.map Token.kind, t.isLegal = true := by
  intro t ht
  obtain ⟨next, next', hstep⟩ := Reader.exists_step_of_mem h ht
  obtain ⟨token, hmem, rfl⟩ := List.mem_map.1 ht
  have hlex : token ∈ Token.lex text := by
    rw [hsplit]
    exact List.mem_append_left _ hmem
  rcases List.mem_append.1 hlex with hscan | hend
  · rcases Token.isLegal_of_mem_scan hscan with hlegal | ⟨c, hc⟩
    · exact hlegal
    · obtain ⟨fault, hfault⟩ := Reader.step_illegal nestingLimit next c
      rw [hc, hfault] at hstep
      cases hstep
  · obtain rfl := List.mem_singleton.1 hend
    obtain ⟨fault, hfault⟩ := Reader.step_finish nestingLimit next
    cases hfault.symm.trans hstep

/-- Legal tokens that the reader goes over begin the accepted tokens of some text. -/
theorem exists_isAccepted_of_steps {ts : List TokenKind} {s : Reader.State}
    (hlegal : ∀ t ∈ ts, t.isLegal = true) (h : Reader.steps nestingLimit .start ts = .ok s) :
    ∃ text, IsAccepted ((Token.lex text).map Token.kind) ∧
      ts <+: (Token.lex text).map Token.kind := by
  obtain ⟨f, hderives, hnesting⟩ := Reader.exists_derives_of_steps h
  have hkinds : (Token.lex (Token.spelled (ts ++ Reader.completion s))).map Token.kind =
      ts ++ Reader.completion s ++ [.finish] := by
    rw [Token.map_kind_lex, Token.kinds_spelled]
    intro t ht
    rcases List.mem_append.1 ht with ht | ht
    · exact hlegal t ht
    · exact Reader.isLegal_of_mem_completion ht
  refine ⟨_, ⟨_, f, hkinds, hderives, forall_mem_marks_iff.2 (by omega)⟩, ?_⟩
  rw [hkinds, List.append_assoc]
  exact List.prefix_append _ _

/-- The error `e` points at the token of `text` with the index `i`, and that is the earliest token
that is impossible. The token that marks the end counts too. -/
structure PointsAtEarliest (text : String) (e : ParseError) (i : Nat) : Prop where
  /-- The error has the offset of the token. -/
  offset_eq : ∃ token, (Token.lex text)[i]? = some token ∧ e.offset = token.offset
  /-- The offset is the number of bytes of the text before the token, which ends between two
  characters, and the column is one more than the number of its characters. -/
  column_eq : ∃ before after, text = before ++ after ∧ e.offset = before.utf8ByteSize ∧
    e.column = before.length + 1
  /-- The tokens before it begin a text that is read. -/
  viable : ∃ other f, parseRaw other = .ok f ∧
    ((Token.lex text).map Token.kind).take i <+: (Token.lex other).map Token.kind
  /-- No accepted tokens begin with the tokens up to it. -/
  impossible : ∀ ts, IsAccepted ts → ¬ ((Token.lex text).map Token.kind).take (i + 1) <+: ts

/-- Where a text is not read, its error points at the earliest impossible token. -/
theorem parseRaw_error_earliest {text : String} {e : ParseError} (h : parseRaw text = .error e) :
    ∃ i, PointsAtEarliest text e i := by
  obtain ⟨read, token, rest, s, detail, hsplit, hsteps, hrefuses, rfl⟩ :=
    exists_refused_of_parseRaw h
  have hmem : token ∈ Token.lex text := by simp [hsplit]
  obtain ⟨before, after, htext, hoffset⟩ := Token.exists_split_of_mem_lex hmem
  have hread : ((Token.lex text).map Token.kind).take read.length = read.map Token.kind := by
    simp [hsplit]
  have hupto : ((Token.lex text).map Token.kind).take (read.length + 1) =
      read.map Token.kind ++ [token.kind] := by
    rw [hsplit, List.map_append, List.map_cons, List.append_cons, List.take_left' (by simp)]
  rw [hoffset, ParseError.atOffset_of_boundary htext]
  refine ⟨read.length, ⟨token, by simp [hsplit], hoffset.symm⟩, ?_, ?_, ?_⟩
  · refine ⟨.ofList before, .ofList after, ?_, ?_, by simp⟩
    · rw [← String.ofList_append, ← htext, String.ofList_toList]
    · rw [← Text.byteLength_toList, String.toList_ofList]
  · obtain ⟨other, haccepted, hbegin⟩ :=
      exists_isAccepted_of_steps (isLegal_of_steps hsplit hsteps) hsteps
    obtain ⟨f, hf⟩ := isAccepted_lex_iff.1 haccepted
    exact ⟨other, f, hf, hread ▸ hbegin⟩
  · rintro ts ⟨us, f, rfl, hderives, hmarks⟩
    rw [hupto]
    have hnesting : 0 + f.nesting ≤ nestingLimit := forall_mem_marks_iff.1 hmarks
    exact Reader.not_prefix_of_refuses hsteps hrefuses hderives (by omega)

/-- Two no-break spaces of two bytes each stand before the bracket. -/
theorem parseRaw_error_earliest_bracket :
    parseRaw "a\u00a0&\u00a0!)" = .error ⟨7, 6, "unexpected ')', expected a formula"⟩ ∧
    ∃ i, PointsAtEarliest "a\u00a0&\u00a0!)" ⟨7, 6, "unexpected ')', expected a formula"⟩ i := by
  have hscan : Token.scan 0 "a\u00a0&\u00a0!)".toList =
      [⟨.identifier "a", 0⟩, ⟨.connective .conj, 3⟩, ⟨.neg, 6⟩, ⟨.closing, 7⟩] := by
    decide +kernel
  have herror :
      parseRaw "a\u00a0&\u00a0!)" = .error ⟨7, 6, "unexpected ')', expected a formula"⟩ := by
    rw [parseRaw, hscan]
    rfl
  exact ⟨herror, parseRaw_error_earliest herror⟩

end Formula

end Sentential
