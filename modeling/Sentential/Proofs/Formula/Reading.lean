import Sentential.Proofs.Formula.Grammar
import Sentential.Proofs.Token.Lexing

/-!
# The reader accepts exactly the grammar

Tokens that derive a tree lead the reader from where an operand comes to where one has ended, as
long as no more brackets and negations are open than it allows. Conversely what the reader holds at
any time are derivations of what it has read: those of the operands that wait, bracket by bracket.

* `Reader.reads`: the run of the reader on derived tokens.
* `Reader.stateReads_step`: a token keeps the tokens read and the derivations held in step.
* `Reader.exists_steps_iff`: the reader accepts the derivable tokens that are not too deep.
* `Derives.unique`: no tokens have two trees.
* `parseRaw_exact`: the formula of a text.
-/

namespace Sentential

namespace Formula.Reader

/-! ## Joining operands -/

theorem negated_neg (n : Nat) (f : Formula) : negated n (.neg f) = negated (n + 1) f := by
  induction n with
  | zero => rfl
  | succ n ih => exact congrArg Formula.neg ih

/-- Nothing is joined when every pending connective binds less tightly. -/
theorem join_of_lt {strength : Nat} {f : Formula} {pending : List Pending}
    (h : ∀ q ∈ pending, q.1.strength < strength) : join strength f pending = (f, pending) := by
  cases pending with
  | nil => rfl
  | cons q pending =>
    have := h q (by simp)
    rw [join, if_neg (by omega)]

/-- To join what binds tightly first makes no difference. -/
theorem join_join {loose tight : Nat} (h : loose ≤ tight) (f : Formula) (pending : List Pending) :
    join loose (join tight f pending).1 (join tight f pending).2 = join loose f pending := by
  induction pending generalizing f with
  | nil => rfl
  | cons q pending ih =>
    by_cases htight : tight ≤ q.1.strength
    · have hloose : loose ≤ q.1.strength := by omega
      have hright : join loose f (q :: pending) = join loose (.binary q.1 q.2 f) pending := by
        rw [join, if_pos hloose]
      rw [join, if_pos htight, ih, hright]
    · have hkeep : join tight f (q :: pending) = (f, q :: pending) := by
        rw [join, if_neg htight]
      rw [hkeep]

/-- The join of an operand with what is joined to it already. -/
theorem join_eq_of_join_eq {loose tight : Nat} {f g : Formula} {pending rest : List Pending}
    (hle : loose ≤ tight) (h : join tight f pending = (g, rest)) :
    join loose f pending = join loose g rest := by
  rw [← join_join hle f pending, h]

/-! ## The depth of a state -/

/-- The brackets and negations that are open around the innermost bracket. -/
def around : List Frame → Nat
  | [] => 0
  | next :: outer => depth next outer + 1

theorem depth_eq (frame : Frame) (outer : List Frame) :
    depth frame outer = frame.negations + around outer := by
  cases outer with
  | nil => rfl
  | cons next outer =>
    rw [depth, around]
    omega

/-! ## Derived tokens are read -/

/-- The reader's way over some tokens. -/
def steps (limit : Nat) (state : State) (ts : List TokenKind) : Except SyntaxFault State :=
  ts.foldlM (step limit) state

theorem steps_cons {limit : Nat} {state next : State} {t : TokenKind} {ts : List TokenKind}
    (h : step limit state t = .ok next) : steps limit state (t :: ts) = steps limit next ts := by
  rw [steps, List.foldlM_cons, h]
  rfl

theorem steps_append {limit : Nat} {state next : State} {ts us : List TokenKind}
    (h : steps limit state ts = .ok next) :
    steps limit state (ts ++ us) = steps limit next us := by
  rw [steps] at h
  rw [steps, List.foldlM_append, h]
  rfl

/-- The reader goes over a chain operand by operand, given how it goes over each. -/
theorem steps_chain {limit : Nat} {op : Connective} {outer : List Frame} {pending : List Pending}
    {rest : List Operand} (hpending : ∀ q ∈ pending, q.1.strength < op.strength)
    (hrest : ∀ operand ∈ rest, ∀ left, ∃ g pending',
      steps limit (.operand ⟨(op, left) :: pending, 0⟩ outer) operand.1 =
        .ok (.operator g pending' outer) ∧
      join (op.strength + 1) g pending' = (operand.2, (op, left) :: pending))
    {f g : Formula} {pending' : List Pending} (hg : join op.strength g pending' = (f, pending)) :
    ∃ g' pending'', steps limit (.operator g pending' outer)
        (rest.flatMap fun operand => .connective op :: operand.1) =
          .ok (.operator g' pending'' outer) ∧
      join op.strength g' pending'' = (chainTree op f rest, pending) := by
  induction rest generalizing f g pending' with
  | nil => exact ⟨g, pending', rfl, hg⟩
  | cons operand rest ih =>
    obtain ⟨hoperand, hrest⟩ := List.forall_mem_cons.1 hrest
    obtain ⟨g₁, pending₁, hsteps, hjoin⟩ := hoperand f
    have hop : step limit (.operator g pending' outer) (.connective op) =
        .ok (.operand ⟨(op, f) :: pending, 0⟩ outer) := by
      simp only [step, hg]
    -- the right operand is joined to the left one, and the connective below it waits on
    have hjoined : join op.strength g₁ pending₁ = (.binary op f operand.2, pending) := by
      rw [join_eq_of_join_eq (by omega) hjoin, join, if_pos (Nat.le_refl _),
        join_of_lt hpending]
    obtain ⟨g', pending'', hsteps', hjoin'⟩ := ih hrest hjoined
    refine ⟨g', pending'', ?_, hjoin'⟩
    rw [List.flatMap_cons, List.cons_append, steps_cons hop, steps_append hsteps, hsteps']

/-- Derived tokens lead the reader from where an operand comes to where it has ended. In a chain
some operands are left to join. -/
theorem reads {limit : Nat} {l : Level} {ts : List TokenKind} {f : Formula} (h : Derives l ts f)
    (pending : List Pending) (n : Nat) (outer : List Frame) (hn : n = 0 ∨ 4 ≤ l.strength)
    (hpending : ∀ q ∈ pending, q.1.strength < l.strength)
    (hdepth : n + around outer + f.nesting ≤ limit) :
    ∃ g pending', steps limit (.operand ⟨pending, n⟩ outer) ts = .ok (.operator g pending' outer) ∧
      join l.strength g pending' = (negated n f, pending) := by
  induction h generalizing pending n outer with
  | @chain op ts f rest first others ihfirst ihrest =>
    have hop := op.strength_lt_four
    obtain rfl : n = 0 := by
      rcases hn with hn | hn
      · exact hn
      · rw [Level.strength_chain] at hn
        omega
    have hroom : (chainTree op f rest).nesting ≤ limit - around outer := by omega
    obtain ⟨hdepthFirst, hdepthRest⟩ := nesting_chainTree_le.1 hroom
    have hweaker : ∀ q ∈ pending, q.1.strength < (Level.ofOperands op).strength := by
      intro q hq
      have := hpending q hq
      rw [Level.strength_chain] at this
      rw [Level.strength_ofOperands]
      omega
    obtain ⟨g, pending', hsteps, hjoin⟩ := ihfirst pending 0 outer (.inl rfl) hweaker (by omega)
    rw [Level.strength_ofOperands] at hjoin
    have hjoined : join op.strength g pending' = (f, pending) := by
      rw [join_eq_of_join_eq (by omega) hjoin]
      exact join_of_lt hpending
    have hoperand : ∀ operand ∈ rest, ∀ left, ∃ g pending',
        steps limit (.operand ⟨(op, left) :: pending, 0⟩ outer) operand.1 =
          .ok (.operator g pending' outer) ∧
        join (op.strength + 1) g pending' = (operand.2, (op, left) :: pending) := by
      intro operand hmem left
      have hlt : ∀ q ∈ (op, left) :: pending, q.1.strength < (Level.ofOperands op).strength :=
        List.forall_mem_cons.2 ⟨by simp, hweaker⟩
      have hdepthOperand := hdepthRest operand hmem
      have hread := ihrest operand hmem _ 0 outer (.inl rfl) hlt (by omega)
      rwa [Level.strength_ofOperands] at hread
    obtain ⟨g', pending'', hsteps', hjoin'⟩ := steps_chain hpending hoperand hjoined
    refine ⟨g', pending'', ?_, hjoin'⟩
    rw [chainTokens, steps_append hsteps, hsteps']
  | @neg ts p inner ih =>
    rw [nesting] at hdepth
    have hneg : step limit (.operand ⟨pending, n⟩ outer) .neg =
        .ok (.operand ⟨pending, n + 1⟩ outer) := by
      simp only [step, depth_eq]
      rw [if_neg (by omega)]
    obtain ⟨g, pending', hsteps, hjoin⟩ :=
      ih pending (n + 1) outer (.inr (Nat.le_refl _)) hpending (by omega)
    refine ⟨g, pending', ?_, by rw [hjoin, negated_neg]⟩
    rw [steps_cons hneg, hsteps]
  | ofAtom inner ih =>
    have hlt : ∀ q ∈ pending, q.1.strength < Level.atom.strength :=
      fun q _ => Nat.lt_trans q.1.strength_lt_four (by decide)
    obtain ⟨g, pending', hsteps, hjoin⟩ := ih pending n outer (.inr (by decide)) hlt hdepth
    refine ⟨g, pending', hsteps, ?_⟩
    rw [join_eq_of_join_eq (by decide) hjoin]
    exact join_of_lt hpending
  | name | top | bottom => exact ⟨_, _, rfl, join_of_lt hpending⟩
  | @group ts p inner ih =>
    rw [nesting] at hdepth
    have hopening : step limit (.operand ⟨pending, n⟩ outer) .opening =
        .ok (.operand ⟨[], 0⟩ (⟨pending, n⟩ :: outer)) := by
      simp only [step, depth_eq]
      rw [if_neg (by omega)]
    have haround : around (⟨pending, n⟩ :: outer) = n + around outer + 1 := by
      rw [around, depth_eq]
    obtain ⟨g, pending', hsteps, hjoin⟩ :=
      ih [] 0 (⟨pending, n⟩ :: outer) (.inl rfl) (by simp) (by omega)
    have hclosing : step limit (.operator g pending' (⟨pending, n⟩ :: outer)) .closing =
        .ok (.operator (negated n (.group p)) pending outer) := by
      have hall : join 0 g pending' = (p, []) := hjoin
      simp only [step, hall, Frame.complete]
    refine ⟨_, _, ?_, join_of_lt hpending⟩
    rw [List.cons_append, steps_cons hopening, steps_append hsteps, steps_cons hclosing]
    rfl

/-! ## What the reader holds has been derived -/

/-- The tokens `ts` were read as pending operands, each with its connective after it. An operand
binds more tightly than the connective before it, and leaves the brackets `room` levels. -/
inductive PendingReads (room : Nat) : List Pending → List TokenKind → Prop
  | nil : PendingReads room [] []
  | cons {op : Connective} {p : Formula} {rest : List Pending} {ts us : List TokenKind}
      (before : PendingReads room rest ts) (derived : Derives (.chain op) us p)
      (fits : p.nesting ≤ room) (tighter : ∀ q ∈ rest, q.1.strength < op.strength) :
      PendingReads room ((op, p) :: rest) (ts ++ us ++ [.connective op])

/-- The tokens `ts` were read as the frames of the open brackets, which leave the innermost one
`room` levels of `limit`. -/
inductive OuterReads (limit : Nat) : List Frame → Nat → List TokenKind → Prop
  | nil : OuterReads limit [] limit []
  | cons {frame : Frame} {outer : List Frame} {room inner : Nat} {ts us : List TokenKind}
      (before : OuterReads limit outer room ts) (pending : PendingReads room frame.pending us)
      (fits : frame.negations + 1 + inner = room) :
      OuterReads limit (frame :: outer) inner
        (ts ++ us ++ List.replicate frame.negations .neg ++ [.opening])

/-- The tokens `ts` lead the reader to a state. -/
inductive StateReads (limit : Nat) : State → List TokenKind → Prop
  | operand {frame : Frame} {outer : List Frame} {room : Nat} {ts us : List TokenKind}
      (before : OuterReads limit outer room ts) (pending : PendingReads room frame.pending us)
      (fits : frame.negations ≤ room) :
      StateReads limit (.operand frame outer)
        (ts ++ us ++ List.replicate frame.negations .neg)
  | operator {f : Formula} {pending : List Pending} {outer : List Frame} {room : Nat}
      {ts us vs : List TokenKind}
      (before : OuterReads limit outer room ts) (waiting : PendingReads room pending us)
      (derived : Derives .unary vs f) (fits : f.nesting ≤ room) :
      StateReads limit (.operator f pending outer) (ts ++ us ++ vs)

variable {limit room : Nat} {ts us vs : List TokenKind}

theorem OuterReads.room_eq {outer : List Frame} (h : OuterReads limit outer room ts) :
    around outer + room = limit := by
  induction h with
  | nil => simp [around]
  | cons before pending fits ih =>
    rw [around, depth_eq]
    omega

/-- Joining keeps the tokens, and what is joined is derived at the level of the chain. -/
theorem PendingReads.join (op : Connective) {l : Level} {f : Formula} {pending : List Pending}
    (h : PendingReads room pending ts) (hf : Derives l us f) (hfits : f.nesting ≤ room)
    (htight : ∀ q ∈ pending, q.1.strength < l.strength) (hop : op.strength ≤ l.strength) :
    ∃ ts' us', ts' ++ us' = ts ++ us ∧
      PendingReads room (Reader.join op.strength f pending).2 ts' ∧
      Derives (.chain op) us' (Reader.join op.strength f pending).1 ∧
      (Reader.join op.strength f pending).1.nesting ≤ room ∧
      ∀ q ∈ (Reader.join op.strength f pending).2, q.1.strength < op.strength := by
  induction h generalizing l us f with
  | nil => exact ⟨[], us, rfl, .nil, hf.loosen hop, hfits, by simp [Reader.join]⟩
  | @cons op' p rest ts' us' before derived fits tighter ih =>
    by_cases hjoin : op.strength ≤ op'.strength
    · -- the connective binds its right operand, which the chain of the left one takes in
      have hright : Derives (.ofOperands op') us f := by
        refine hf.loosen ?_
        have := htight (op', p) (by simp)
        rwa [Level.strength_ofOperands]
      obtain ⟨ts'', us'', happend, hreads⟩ :=
        ih (derived.snoc hright) (Nat.max_le.2 ⟨fits, hfits⟩) tighter hjoin
      refine ⟨ts'', us'', ?_, ?_⟩
      · rw [happend]
        simp
      · rwa [Reader.join, if_pos hjoin]
    · rw [Reader.join, if_neg hjoin]
      refine ⟨_, us, rfl, .cons before derived fits tighter, hf.loosen hop, hfits, ?_⟩
      refine List.forall_mem_cons.2 ⟨Nat.lt_of_not_le hjoin, fun q hq => ?_⟩
      have := tighter q hq
      omega

/-- All that waits in a bracket is joined where it ends. -/
theorem PendingReads.join_all {f : Formula} {pending : List Pending}
    (h : PendingReads room pending ts) (hf : Derives .unary us f) (hfits : f.nesting ≤ room) :
    Derives (.chain .iff) (ts ++ us) (Reader.join 0 f pending).1 ∧
      (Reader.join 0 f pending).1.nesting ≤ room := by
  obtain ⟨ts', us', happend, hpending, hderived, hnesting, hlt⟩ :=
    h.join .iff hf hfits (fun q _ => q.1.strength_lt_four) (Nat.zero_le _)
  have hnone : (Reader.join Connective.iff.strength f pending).2 = [] :=
    List.eq_nil_iff_forall_not_mem.2 fun q hq => Nat.not_lt_zero _ (hlt q hq)
  rw [hnone] at hpending
  cases hpending
  rw [← happend, List.nil_append]
  exact ⟨hderived, hnesting⟩

/-- An operand without negations ends in a frame. -/
theorem StateReads.complete {frame : Frame} {outer : List Frame} {f : Formula}
    (before : OuterReads limit outer room ts) (pending : PendingReads room frame.pending us)
    (derived : Derives .atom vs f) (fits : frame.negations + f.nesting ≤ room) :
    StateReads limit (frame.complete outer f)
      (ts ++ us ++ List.replicate frame.negations .neg ++ vs) := by
  have hnegated : ∀ n, Derives .unary (List.replicate n .neg ++ vs) (negated n f) ∧
      (negated n f).nesting = n + f.nesting := by
    intro n
    induction n with
    | zero => exact ⟨derived.ofAtom, (Nat.zero_add _).symm⟩
    | succ n ih =>
      have hneg : negated (n + 1) f = .neg (negated n f) := rfl
      rw [hneg, List.replicate_succ, List.cons_append, nesting, ih.2]
      exact ⟨ih.1.neg, by omega⟩
  obtain ⟨hderived, hnesting⟩ := hnegated frame.negations
  rw [List.append_assoc]
  exact .operator before pending hderived (by omega)

/-- A token keeps the tokens read and the derivations held in step. -/
theorem stateReads_step {s s' : State} {t : TokenKind} (h : StateReads limit s ts)
    (hstep : step limit s t = .ok s') : StateReads limit s' (ts ++ [t]) := by
  cases h with
  | @operand frame outer room ts us before pending fits =>
    have hroom := before.room_eq
    cases t with
    | identifier name =>
      cases hstep
      exact .complete before pending (.name name) fits
    | top =>
      cases hstep
      exact .complete before pending .top fits
    | bottom =>
      cases hstep
      exact .complete before pending .bottom fits
    | neg =>
      simp only [step, depth_eq] at hstep
      split at hstep
      · cases hstep
      · cases hstep
        have hfits : frame.negations + 1 ≤ room := by omega
        rw [List.append_assoc, ← List.replicate_succ']
        exact .operand before pending hfits
    | opening =>
      simp only [step, depth_eq] at hstep
      split at hstep
      · cases hstep
      · cases hstep
        have hinner : frame.negations + 1 + (room - (frame.negations + 1)) = room := by omega
        have hempty : StateReads limit (.operand ⟨[], 0⟩ (frame :: outer)) _ :=
          .operand (.cons before pending hinner) .nil (Nat.zero_le _)
        simpa using hempty
    | connective | closing | illegal | finish => cases hstep
  | @operator f waiting outer room ts us vs before pending derived fits =>
    cases t with
    | connective op =>
      obtain ⟨ts', us', happend, hpending, hderived, hfits, htighter⟩ :=
        pending.join op derived fits (fun q _ => q.1.strength_lt_four)
          (Nat.le_of_lt op.strength_lt_four)
      cases hstep
      have hwaits : StateReads limit (.operand ⟨_ :: _, 0⟩ outer) _ :=
        .operand before (.cons hpending hderived hfits htighter) (Nat.zero_le _)
      simpa [List.append_assoc, ← happend] using hwaits
    | closing =>
      cases before with
      | nil => cases hstep
      | @cons frame outer room' _ ts us' before' pending' fits' =>
        obtain ⟨hderived, hnesting⟩ := pending.join_all derived fits
        cases hstep
        have hfits :
            frame.negations + (Formula.group (Reader.join 0 f waiting).1).nesting ≤ room' := by
          rw [nesting]
          omega
        simpa using StateReads.complete before' pending' hderived.group hfits
    | identifier | top | bottom | neg | opening | illegal | finish =>
      cases outer <;> cases hstep

theorem stateReads_steps {s s' : State} (h : StateReads limit s ts)
    (hsteps : steps limit s us = .ok s') : StateReads limit s' (ts ++ us) := by
  induction us generalizing s ts with
  | nil =>
    cases hsteps
    rwa [List.append_nil]
  | cons t us ih =>
    cases hstep : step limit s t with
    | error fault =>
      rw [steps, List.foldlM_cons, hstep] at hsteps
      cases hsteps
    | ok next =>
      rw [steps_cons hstep] at hsteps
      simpa using ih (stateReads_step h hstep) hsteps

theorem stateReads_start : StateReads limit .start [] := by
  have hempty : StateReads limit (.operand ⟨[], 0⟩ []) _ := .operand .nil .nil (Nat.zero_le _)
  exact hempty

/-! ## Whole texts -/

/-- The reader accepts the tokens that derive a tree, unless it is nested too deeply. -/
theorem exists_steps_iff (limit : Nat) {f : Formula} :
    (∃ s, steps limit .start ts = .ok s ∧ finish s = .ok f) ↔
      Derives (.chain .iff) ts f ∧ f.nesting ≤ limit := by
  constructor
  · rintro ⟨s, hsteps, hfinish⟩
    have hreads := stateReads_steps stateReads_start hsteps
    rw [List.nil_append] at hreads
    cases hreads with
    | operand => cases hfinish
    | operator before waiting derived fits =>
      cases before with
      | cons => cases hfinish
      | nil =>
        cases hfinish
        exact waiting.join_all derived fits
  · rintro ⟨hderives, hnesting⟩
    have hdepth : 0 + around [] + f.nesting ≤ limit := by simpa [around] using hnesting
    obtain ⟨g, pending, hsteps, hjoin⟩ := reads hderives [] 0 [] (.inl rfl) (by simp) hdepth
    have hall : join 0 g pending = (f, []) := hjoin
    exact ⟨_, hsteps, by rw [finish, hall]⟩

/-- Wording an error anew does not touch a result. -/
theorem mapError_eq_ok_iff {ε ε' α : Type} {g : ε → ε'} {x : Except ε α} {a : α} :
    x.mapError g = .ok a ↔ x = .ok a := by
  cases x with
  | ok b => exact ⟨fun h => congrArg _ (Except.ok.inj h), fun h => congrArg _ (Except.ok.inj h)⟩
  | error e => exact ⟨nofun, nofun⟩

theorem run_eq_ok_iff (stop : Nat) {s : State} {tokens : List Token} {f : Formula} :
    run limit stop s tokens = .ok f ↔
      ∃ s', steps limit s (tokens.map Token.kind) = .ok s' ∧ finish s' = .ok f := by
  induction tokens generalizing s with
  | nil =>
    have hsteps : steps limit s (([] : List Token).map Token.kind) = .ok s := rfl
    rw [run, hsteps, mapError_eq_ok_iff]
    simp
  | cons token tokens ih =>
    rw [run, List.map_cons]
    cases hstep : step limit s token.kind with
    | error fault =>
      rw [steps, List.foldlM_cons, hstep]
      simp [bind, Except.bind]
    | ok next =>
      rw [steps_cons hstep]
      exact ih

end Formula.Reader

/-- No tokens have two trees. -/
theorem Derives.unique {l l' : Level} {ts : List TokenKind} {f g : Formula} (hf : Derives l ts f)
    (hg : Derives l' ts g) : f = g := by
  have hwhole : ∀ {l : Level} {h : Formula}, Derives l ts h →
      Derives (.chain .iff) ts h := fun h => h.loosen (Nat.zero_le _)
  -- a limit that stops the reader at neither tree
  obtain ⟨s, hsteps, hfinish⟩ := (Formula.Reader.exists_steps_iff (f.nesting + g.nesting)).2
    ⟨hwhole hf, Nat.le_add_right _ _⟩
  obtain ⟨s', hsteps', hfinish'⟩ := (Formula.Reader.exists_steps_iff (f.nesting + g.nesting)).2
    ⟨hwhole hg, Nat.le_add_left _ _⟩
  rw [hsteps] at hsteps'
  cases hsteps'
  rw [hfinish] at hfinish'
  exact Except.ok.inj hfinish'

namespace Formula

/-- A text is read as the tree that its tokens derive, unless it is nested too deeply. -/
theorem parseRaw_eq_ok_iff {text : String} {f : Formula} : parseRaw text = .ok f ↔
    Derives (.chain .iff) (Token.kinds text) f ∧ f.nesting ≤ nestingLimit := by
  rw [Token.kinds_eq, Token.charKinds, ← Reader.exists_steps_iff,
    ← Reader.run_eq_ok_iff text.utf8ByteSize, parseRaw, Reader.mapError_eq_ok_iff]

/-- The reader accepts exactly the grammar. A text is read as `f` if and only if its tokens derive
`f` and at none of them more than the allowed number of brackets and negations is active, where the
marks of `f` are the tokens with these numbers. No text has two trees, however deep. -/
theorem parseRaw_exact (text : String) :
    (∀ f, parseRaw text = .ok f ↔ Derives (.chain .iff) (Token.kinds text) f ∧
      ∀ mark ∈ f.marks 0, mark.2 ≤ nestingLimit) ∧
    (∀ f, Derives (.chain .iff) (Token.kinds text) f →
      (f.marks 0).map Prod.fst = Token.kinds text) ∧
    ∀ f g, Derives (.chain .iff) (Token.kinds text) f →
      Derives (.chain .iff) (Token.kinds text) g → f = g := by
  refine ⟨fun f => ?_, fun f hf => ?_, fun f g => Derives.unique⟩
  · rw [parseRaw_eq_ok_iff, forall_mem_marks_iff, Nat.zero_add]
  · rw [map_fst_marks, hf.kinds_eq]

end Formula

end Sentential
