import Ramify.Proofs.Algebra.Fraction

/-!
Where the symbols of a calculated fraction come from. No operation invents a symbol, over whatever
type of numbers it is carried out: what occurs in a result occurs in an operand, and a substitution
leaves the symbols that it does not replace and those of its replacements.
-/

namespace Ramify.Fraction

variable {K : Type} [Scalar K] {P : Symbol → Prop} {a b c : Fraction K}

omit [Scalar K] in
theorem Over.imp {Q : Symbol → Prop} (h : a.Over P) (himp : ∀ symbol, P symbol → Q symbol) :
    a.Over Q :=
  ⟨h.1.imp (fun _ he symbol hne => himp symbol (he symbol hne)),
    h.2.imp (fun _ he symbol hne => himp symbol (he symbol hne))⟩

theorem over_zero (P : Symbol → Prop) : (zero : Fraction K).Over P :=
  ⟨nofun, all_one (over_empty P)⟩

theorem over_const (P : Symbol → Prop) (x : K) : (const x).Over P :=
  ⟨Polynomial.all_ofMonomial (over_empty P), all_one (over_empty P)⟩

theorem over_ofSymbol {symbol : Symbol} (h : P symbol) : (ofSymbol symbol : Fraction K).Over P := by
  refine ⟨?_, all_one (over_empty P)⟩
  intro m hm other hne
  rw [List.mem_singleton.1 hm] at hne
  have hget : (Powers.single symbol 1).get other ≠ 0 := hne
  rw [Powers.get_single] at hget
  split at hget
  · rename_i hsame
    exact hsame ▸ h
  · exact absurd rfl hget

/-- Cancelling a shared power removes symbols only. -/
theorem over_lowestTerms {num den : Polynomial K} (hnum : num.All (Powers.Over P))
    (hden : den.All (Powers.Over P)) : (lowestTerms num den).Over P := by
  unfold lowestTerms
  split
  · exact over_zero P
  have hall : ∀ m ∈ num.terms ++ den.terms, m.exponents.Over P := by
    intro m hm
    exact (List.mem_append.1 hm).elim (hnum m) (hden m)
  have hterm : ∀ m ∈ num.terms ++ den.terms,
      (m.exponents.div (content (num.terms ++ den.terms))).Over P := by
    intro m hm symbol hne
    rw [Powers.get_div, get_content] at hne
    by_cases hzero : leastDegree symbol (num.terms ++ den.terms) = 0
    · rw [hzero, sub_zero] at hne
      exact hall m hm symbol hne
    · -- a shared power is the power of some term
      obtain ⟨n, hn, hdegree⟩ := exists_leastDegree hzero
      apply hall n hn symbol
      change n.degree symbol ≠ 0
      rw [hdegree]
      exact hzero
  have hn := all_divContent (fun m hm => hterm m (List.mem_append_left _ hm))
  have hd := all_divContent (fun m hm => hterm m (List.mem_append_right _ hm))
  dsimp only
  split
  · exact ⟨hn, hd⟩
  · exact ⟨Polynomial.all_mapCoeffs hn _, Polynomial.all_mapCoeffs hd _⟩

theorem over_make {num den : Polynomial K} (hnum : num.All (Powers.Over P))
    (hden : den.All (Powers.Over P)) (h : make num den = .ok a) : a.Over P := by
  unfold make at h
  dsimp only at h
  split at h
  · cases h
  · cases h
    exact over_lowestTerms (Polynomial.all_ofTerms hnum) (Polynomial.all_ofTerms hden)

theorem over_ofPolynomial {p : Polynomial K} (hp : p.All (Powers.Over P)) :
    (ofPolynomial p).Over P :=
  over_lowestTerms (Polynomial.all_ofTerms hp) (all_one (over_empty P))

theorem over_ofMonomial {m : Monomial K} (hm : m.exponents.Over P) : (ofMonomial m).Over P :=
  over_ofPolynomial (Polynomial.all_ofMonomial hm)

private theorem over_product {p q : Polynomial K} (hp : p.All (Powers.Over P))
    (hq : q.All (Powers.Over P)) : (p * q).All (Powers.Over P) :=
  Polynomial.all_mul (fun _ _ hx hy => hx.mul hy) hp hq

theorem Over.add (ha : a.Over P) (hb : b.Over P) (h : a.add b = .ok c) : c.Over P :=
  over_make (Polynomial.all_add (over_product ha.1 hb.2) (over_product hb.1 ha.2))
    (over_product ha.2 hb.2) h

theorem Over.sub (ha : a.Over P) (hb : b.Over P) (h : a.sub b = .ok c) : c.Over P :=
  over_make (Polynomial.all_sub (over_product ha.1 hb.2) (over_product hb.1 ha.2))
    (over_product ha.2 hb.2) h

theorem Over.mul (ha : a.Over P) (hb : b.Over P) (h : a.mul b = .ok c) : c.Over P :=
  over_make (over_product ha.1 hb.1) (over_product ha.2 hb.2) h

theorem Over.div (ha : a.Over P) (hb : b.Over P) (h : a.div b = .ok c) : c.Over P := by
  unfold Fraction.div at h
  split at h
  · cases h
  · exact over_make (over_product ha.1 hb.2) (over_product ha.2 hb.1) h

theorem Over.neg (ha : a.Over P) (h : a.neg = .ok c) : c.Over P :=
  over_make (Polynomial.all_mapCoeffs ha.1 _) ha.2 h

theorem Over.canonical (ha : a.Over P) (h : a.canonical = .ok c) : c.Over P :=
  over_make ha.1 ha.2 h

theorem Over.powNat (ha : a.Over P) {n : Nat} (h : a.powNat n = .ok c) : c.Over P := by
  induction n generalizing c with
  | zero =>
      cases h
      exact over_const P 1
  | succ n ih =>
      rw [Fraction.powNat] at h
      obtain ⟨b, hb, hmul⟩ := except_bind_eq_ok.1 h
      exact (ih hb).mul ha hmul

theorem Over.pow (ha : a.Over P) {n : Int} (h : a.pow n = .ok c) : c.Over P := by
  unfold Fraction.pow at h
  split at h
  · obtain ⟨b, hb, hdiv⟩ := except_bind_eq_ok.1 h
    exact (over_const P 1).div (ha.powNat hb) hdiv
  · exact ha.powNat h

section Substitution

variable {replacements : SortedMap Symbol (Fraction K)}

theorem Over.mulPower (ha : a.Over P) (hb : b.Over P) {exponent : Int}
    (h : a.mulPower b exponent = .ok c) : c.Over P := by
  unfold Fraction.mulPower at h
  obtain ⟨power, hpower, hlast⟩ := except_bind_eq_ok.1 h
  split at hlast
  · exact ha.div (hb.powNat hpower) hlast
  · exact ha.mul (hb.powNat hpower) hlast

theorem over_substTerm
    (hrep : ∀ symbol value, replacements.find? symbol = some value → value.Over P)
    {m kept : Monomial K} {replaced : Fraction K}
    (hm : m.exponents.Over (fun symbol => replacements.find? symbol = none → P symbol))
    (h : substTerm m replacements = .ok (kept, replaced)) :
    kept.exponents.Over P ∧ replaced.Over P := by
  unfold substTerm at h
  refine except_foldlM (Q := fun acc => acc.1.exponents.Over P ∧ acc.2.Over P) ?_
    ⟨over_empty P, over_const P 1⟩ h
  intro entry hentry acc next hacc hstep
  unfold substPower at hstep
  cases hfind : replacements.find? entry.1 with
  | none =>
      rw [hfind] at hstep
      cases hstep
      refine ⟨?_, hacc.2⟩
      intro symbol hne
      have hget : (acc.1.exponents.set entry.1 entry.2).get symbol ≠ 0 := hne
      rw [Powers.get_set] at hget
      split at hget
      · rename_i hsame
        rw [← hsame]
        apply hm entry.1 _ hfind
        rw [((Powers.mem_entries_iff m.exponents entry).1 hentry).1]
        exact hget
      · exact hacc.1 symbol hget
  | some replacement =>
      rw [hfind] at hstep
      obtain ⟨product, hproduct, hlast⟩ := except_bind_eq_ok.1 hstep
      cases hlast
      exact ⟨hacc.1, hacc.2.mulPower (hrep _ _ hfind) hproduct⟩

theorem over_substPolynomial
    (hrep : ∀ symbol value, replacements.find? symbol = some value → value.Over P)
    {p : Polynomial K}
    (hp : p.All (Powers.Over (fun symbol => replacements.find? symbol = none → P symbol)))
    (h : substPolynomial p replacements = .ok a) : a.Over P := by
  unfold substPolynomial at h
  refine except_foldlM (Q := fun acc => acc.Over P) ?_ (over_const P 0) h
  intro m hm acc next hacc hstep
  unfold addSubst at hstep
  obtain ⟨⟨kept, replaced⟩, hsplit, hstep⟩ := except_bind_eq_ok.1 hstep
  obtain ⟨product, hmul, hadd⟩ := except_bind_eq_ok.1 hstep
  obtain ⟨hkept, hreplaced⟩ := over_substTerm hrep (hp m hm) hsplit
  exact hacc.add (hreplaced.mul (over_ofMonomial hkept) hmul) hadd

/-- The symbols that are left by a substitution are those that are not replaced, and those of the
replacements. -/
theorem Over.subst
    (hrep : ∀ symbol value, replacements.find? symbol = some value → value.Over P)
    (ha : a.Over (fun symbol => replacements.find? symbol = none → P symbol))
    (h : a.subst replacements = .ok b) : b.Over P := by
  unfold Fraction.subst at h
  obtain ⟨num, hnum, hrest⟩ := except_bind_eq_ok.1 h
  obtain ⟨den, hden, hdiv⟩ := except_bind_eq_ok.1 hrest
  exact (over_substPolynomial hrep ha.1 hnum).div (over_substPolynomial hrep ha.2 hden) hdiv

theorem foldlM_congr {α β : Type} {m : Type → Type} [Monad m] {f g : β → α → m β} {list : List α}
    (h : ∀ x ∈ list, ∀ acc, f acc x = g acc x) (start : β) :
    list.foldlM f start = list.foldlM g start := by
  induction list generalizing start with
  | nil => rfl
  | cons first rest ih =>
      obtain ⟨hfirst, hrest⟩ := List.forall_mem_cons.1 h
      rw [List.foldlM_cons, List.foldlM_cons, hfirst]
      exact congrArg _ (funext (ih hrest))

variable {others : SortedMap Symbol (Fraction K)}

theorem substPolynomial_congr {p : Polynomial K}
    (h : p.All (Powers.Over (fun symbol => replacements.find? symbol = others.find? symbol))) :
    substPolynomial p replacements = substPolynomial p others := by
  refine foldlM_congr (fun m hm acc => ?_) _
  have hterm : substTerm m replacements = substTerm m others := by
    refine foldlM_congr (fun entry hentry split => ?_) _
    obtain ⟨hget, hne⟩ := (Powers.mem_entries_iff m.exponents entry).1 hentry
    unfold substPower
    rw [h m hm entry.1 (hget ▸ hne)]
  unfold addSubst
  rw [hterm]

/-- A substitution depends on the replacements of those symbols only that occur. -/
theorem Over.subst_congr
    (h : a.Over (fun symbol => replacements.find? symbol = others.find? symbol)) :
    a.subst replacements = a.subst others := by
  unfold Fraction.subst
  rw [substPolynomial_congr h.1, substPolynomial_congr h.2]

end Substitution

end Ramify.Fraction
