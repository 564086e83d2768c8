import Sentential.Proofs.Formula.Passes
import Sentential.Proofs.Formula.RoundTrip

/-!
# Chains

The operands of one connective can be written one after the other. The reader folds such a chain to
the left without counting it as nested, but the text of the formula that it reads has a pair of
brackets for every connective. So a formula can be read from a flat text and yet be too deep to be
read from its own.

A step can leave something for the next pass to do: an equivalence with `FALSE` becomes a negation,
and the negation of a negation inside it is only seen one pass later. Links of this kind can be
chained, and a pass takes off one link. So no fixed number of passes finishes every formula, and
every number of links has a flat text.

* `chain`, `chainText`: a chain, and its text without brackets.
* `parseRaw_chainText_iff`: what the flat text is read as.
* `length_le_printedDepth_chain`: how deep the text of the chain is.
* `links`, `linksText`, `parseRaw_linksText`: a chain of links and its flat text.
* `cascade`, `simplifyPass_cascade`: what a pass makes of the links, and that it takes off one.
* `simplify_links`, `simplify_cascade`: what a simplification leaves.
-/

namespace Sentential.Formula

variable {op : Connective} {f g : Formula} {rest : List Formula}

/-- The operands `f` and `rest` joined by one connective, from the left. -/
def chain (op : Connective) (f : Formula) (rest : List Formula) : Formula :=
  rest.foldl (binary op) f

/-- The texts of the operands joined by the sign of the connective, without brackets around them. -/
def chainText (op : Connective) (f : Formula) : List Formula → String
  | [] => f.text
  | g :: rest => f.text ++ " " ++ op.symbol ++ " " ++ chainText op g rest

/-! ## Reading a flat text -/

open Token

/-- An operand as the text shows it, with its tokens. -/
def operandOf (f : Formula) : Operand :=
  (f.bracketed.kinds, f.bracketed)

theorem charKinds_chainText
    (hnames : ∀ p ∈ f :: rest, ∀ name ∈ p.occurrences, isIdentifier name = true)
    {cs : List Char} (hcs : EndsWord cs) : charKinds ((chainText op f rest).toList ++ cs) =
      chainTokens op f.bracketed.kinds (rest.map operandOf) ++ charKinds cs := by
  induction rest generalizing f with
  | nil =>
    simpa [chainText, chainTokens] using charKinds_text (hnames f (by simp)) hcs
  | cons g rest ih =>
    obtain ⟨hf, hrest⟩ := List.forall_mem_cons.1 hnames
    have hblank : ∀ cs, EndsWord (' ' :: cs) := fun cs => endsWord_cons (by decide)
    calc charKinds ((chainText op f (g :: rest)).toList ++ cs)
        = charKinds (f.text.toList ++ ' ' :: (op.symbol.toList ++
            ' ' :: ((chainText op g rest).toList ++ cs))) := by
          simp [chainText]
      _ = f.bracketed.kinds ++ .connective op ::
            (chainTokens op g.bracketed.kinds (rest.map operandOf) ++ charKinds cs) := by
          rw [charKinds_text hf (hblank _), charKinds_blank (by decide), charKinds_connective,
            charKinds_blank (by decide), ih hrest]
      _ = chainTokens op f.bracketed.kinds ((g :: rest).map operandOf) ++ charKinds cs := by
          simp [chainTokens, operandOf]

/-- A flat text is read as the chain of what its operands are read as, however long it is. -/
theorem parseRaw_chainText_iff
    (hnames : ∀ p ∈ f :: rest, ∀ name ∈ p.occurrences, isIdentifier name = true) :
    parseRaw (chainText op f rest) = .ok g ↔
      (∀ p ∈ f :: rest, p.printedDepth ≤ nestingLimit) ∧
        chain op f.bracketed (rest.map bracketed) = g := by
  have hoperand : ∀ p : Formula, Derives (.ofOperands op) p.bracketed.kinds p.bracketed := by
    intro p
    refine (derives_bracketed p).loosen ?_
    rw [Level.strength_ofOperands]
    exact op.strength_lt_four
  have htree : chainTree op f.bracketed (rest.map operandOf) =
      chain op f.bracketed (rest.map bracketed) := by
    rw [chainTree, chain, List.foldl_map, List.foldl_map]
    rfl
  have hkinds : Token.kinds (chainText op f rest) =
      chainTokens op f.bracketed.kinds (rest.map operandOf) := by
    rw [Token.kinds_eq, ← List.append_nil (chainText op f rest).toList,
      charKinds_chainText hnames endsWord_nil, charKinds_nil, List.append_nil]
  have hderives : Derives (.chain .iff) (Token.kinds (chainText op f rest))
      (chain op f.bracketed (rest.map bracketed)) := by
    rw [hkinds, ← htree]
    refine Derives.loosen (.chain (hoperand f) ?_) (Nat.zero_le _)
    intro operand hmem
    obtain ⟨p, -, rfl⟩ := List.mem_map.1 hmem
    exact hoperand p
  have hnesting : (chain op f.bracketed (rest.map bracketed)).nesting ≤ nestingLimit ↔
      ∀ p ∈ f :: rest, p.printedDepth ≤ nestingLimit := by
    rw [← htree, nesting_chainTree_le, List.forall_mem_cons, List.forall_mem_map]
    simp only [operandOf, nesting_bracketed]
  rw [parseRaw_eq_ok_iff]
  constructor
  · rintro ⟨hg, hdepth⟩
    obtain rfl := hg.unique hderives
    exact ⟨hnesting.1 hdepth, rfl⟩
  · rintro ⟨hdepth, rfl⟩
    exact ⟨hderives, hnesting.2 hdepth⟩

/-- A flat text of operands that the text shows as they are, of finitely many kinds. -/
theorem parseRaw_chainText_of_subset {ps : List Formula}
    (hps : ∀ p ∈ ps, (∀ name ∈ p.occurrences, isIdentifier name = true) ∧
      p.printedDepth ≤ nestingLimit ∧ p.bracketed = p)
    (hsub : f :: rest ⊆ ps) : parseRaw (chainText op f rest) = .ok (chain op f rest) := by
  have hall := fun p hp => hps p (hsub hp)
  have hf : f.bracketed = f := (hall f (List.mem_cons_self ..)).2.2
  have hrest : rest.map bracketed = rest :=
    (List.map_congr_left fun p hp => (hall p (List.mem_cons_of_mem _ hp)).2.2).trans (List.map_id _)
  refine (parseRaw_chainText_iff fun p hp => (hall p hp).1).2 ⟨fun p hp => (hall p hp).2.1, ?_⟩
  rw [hf, hrest]

/-! ## The depth of a chain -/

/-- The text of a chain has as many brackets around its first operand as there are connectives. -/
theorem length_le_printedDepth_chain : rest.length ≤ (chain op f rest).printedDepth := by
  suffices h : f.printedDepth + rest.length ≤ (chain op f rest).printedDepth by omega
  induction rest generalizing f with
  | nil => exact Nat.le_refl _
  | cons g rest ih =>
    have hstep : chain op f (g :: rest) = chain op (binary op f g) rest := rfl
    have hdepth := ih (f := binary op f g)
    have hmax : f.printedDepth ≤ max f.printedDepth g.printedDepth := Nat.le_max_left _ _
    rw [printedDepth] at hdepth
    rw [hstep, List.length_cons]
    omega

/-! ## Long conjunctions -/

/-- `b` and `n` times `& a`. -/
def longConjunction (n : Nat) : Formula :=
  chain .conj (atom "b") (List.replicate n (atom "a"))

/-- No pass makes a long conjunction shorter: a repeated operand is only seen next to itself. -/
theorem simplifyPass_longConjunction (n : Nat) :
    (longConjunction n).simplifyPass = longConjunction n := by
  have hstep : ∀ n, longConjunction (n + 1) = conj (longConjunction n) (atom "a") := by
    intro n
    rw [longConjunction, chain, List.replicate_succ', List.foldl_append]
    rfl
  induction n with
  | zero => rfl
  | succ n ih =>
    have hlaw : simplifyLattice .conj .disj top bottom (longConjunction n) (atom "a") =
        conj (longConjunction n) (atom "a") := by
      cases n with
      | zero => decide
      | succ n => simp [hstep, simplifyLattice, complementary, absorbs]
    calc (longConjunction (n + 1)).simplifyPass
        = simplifyLattice .conj .disj top bottom (longConjunction n).simplifyPass (atom "a") := by
          rw [hstep]
          rfl
      _ = longConjunction (n + 1) := by
          rw [ih, hlaw, hstep]

/-- The flat text of a long conjunction. -/
def longConjunctionText (n : Nat) : String :=
  chainText .conj (atom "b") (List.replicate n (atom "a"))

/-- A long conjunction is read from its flat text, however long it is. -/
theorem parseRaw_longConjunctionText (n : Nat) :
    parseRaw (longConjunctionText n) = .ok (longConjunction n) := by
  have hsub : atom "b" :: List.replicate n (atom "a") ⊆ [atom "b", atom "a"] :=
    List.cons_subset_cons _ fun p hp => List.mem_singleton.2 (List.eq_of_mem_replicate hp)
  exact parseRaw_chainText_of_subset (by decide) hsub

theorem le_printedDepth_longConjunction (n : Nat) : n ≤ (longConjunction n).printedDepth := by
  have hlength : (List.replicate n (atom "a")).length ≤ (longConjunction n).printedDepth :=
    length_le_printedDepth_chain
  rwa [List.length_replicate] at hlength

/-! ## Chains of links -/

/-- `FALSE` and `n` times `<=> !a <=> a <=> FALSE`. -/
def links : Nat → Formula
  | 0 => bottom
  | n + 1 => iff (iff (iff (links n) (neg (atom "a"))) (atom "a")) bottom

/-- What one pass leaves of the links. -/
def cascade : Nat → Formula
  | 0 => bottom
  | n + 1 => neg (iff (simplifyIff (cascade n) (neg (atom "a"))) (atom "a"))

/-- At every link of a cascade the equivalence with `a` is there to stay for one pass. -/
theorem simplifyIff_link (n : Nat) :
    simplifyIff (simplifyIff (cascade n) (neg (atom "a"))) (atom "a") =
      iff (simplifyIff (cascade n) (neg (atom "a"))) (atom "a") := by
  cases n with
  | zero => rfl
  | succ n => simp [cascade, simplifyIff, complementary]

/-- A pass takes off one link. -/
theorem simplifyPass_cascade (n : Nat) : (cascade (n + 1)).simplifyPass = cascade n := by
  induction n with
  | zero => decide
  | succ n ih =>
    -- only the innermost link has `FALSE` on the left, all others keep their shape
    have hlink : cascade (n + 2) =
        neg (iff (iff (cascade (n + 1)) (neg (atom "a"))) (atom "a")) := by
      simp [cascade, simplifyIff, complementary]
    calc (cascade (n + 2)).simplifyPass
        = (neg (simplifyIff (simplifyIff (cascade (n + 1)).simplifyPass (neg (atom "a")))
            (atom "a"))).simplifyStep := by
          rw [hlink]
          rfl
      _ = cascade (n + 1) := by
          rw [ih, simplifyIff_link]
          rfl

theorem simplifyPass_links (n : Nat) : (links n).simplifyPass = cascade n := by
  induction n with
  | zero => rfl
  | succ n ih =>
    calc (links (n + 1)).simplifyPass
        = simplifyIff (simplifyIff (simplifyIff (links n).simplifyPass (neg (atom "a")))
            (atom "a")) bottom := rfl
      _ = cascade (n + 1) := by
          rw [ih, simplifyIff_link]
          simp [simplifyIff, cascade]

theorem iterate_cascade (k n : Nat) : simplifyPass^[k] (cascade (n + k)) = cascade n := by
  induction k with
  | zero => rfl
  | succ k ih => rw [Function.iterate_succ_apply, ← Nat.add_assoc, simplifyPass_cascade, ih]

theorem simplify_cascade (n : Nat) : (cascade (n + passLimit)).simplify = cascade n := by
  rw [simplify_eq_iterate, iterate_cascade]

/-- The first pass over links leaves the cascade, every other pass takes off one link. -/
theorem simplify_links (n : Nat) : (links (n + (passLimit - 1))).simplify = cascade n := by
  have hpasses : passLimit = passLimit - 1 + 1 := by decide
  rw [simplify_eq_iterate, hpasses, Function.iterate_succ_apply, simplifyPass_links,
    Nat.add_sub_cancel, iterate_cascade]

/-- The operands that `n` links add to a chain. -/
def linkOperands (n : Nat) : List Formula :=
  (List.replicate n [neg (atom "a"), atom "a", bottom]).flatten

/-- The flat text of `n` links. -/
def linksText (n : Nat) : String :=
  chainText .iff bottom (linkOperands n)

theorem chain_linkOperands (m n : Nat) : chain .iff (links m) (linkOperands n) = links (m + n) := by
  induction n generalizing m with
  | zero => rfl
  | succ n ih =>
    have hstep : chain .iff (links m) (linkOperands (n + 1)) =
        chain .iff (links (m + 1)) (linkOperands n) := rfl
    rw [hstep, ih, Nat.add_assoc, Nat.add_comm 1]

/-- A flat text of links is read, however many there are. -/
theorem parseRaw_linksText (n : Nat) : parseRaw (linksText n) = .ok (links n) := by
  have hsub : bottom :: linkOperands n ⊆ [neg (atom "a"), atom "a", bottom] := by
    refine List.cons_subset.2 ⟨by simp, fun p hp => ?_⟩
    obtain ⟨block, hblock, hp⟩ := List.mem_flatten.1 hp
    rwa [List.eq_of_mem_replicate hblock] at hp
  have hchain : chain .iff (links 0) (linkOperands n) = links n := by
    rw [chain_linkOperands, Nat.zero_add]
  rw [← hchain]
  exact parseRaw_chainText_of_subset (by decide) hsub

end Sentential.Formula
