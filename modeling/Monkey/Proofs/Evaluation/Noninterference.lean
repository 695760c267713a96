import Monkey.Proofs.Evaluation.Parallel
import Monkey.Session

/-!
# Evaluation depends only on what can be reached

Two worlds agree when all that can be reached in one of them, from the scope in which an evaluation
begins, corresponds to something in the other. The evaluation then comes to the same in both, up to
the names of what it makes. Hence a binding that cannot be reached does not matter, a function does not
see the scope that it is called from, and a call that is made again gives and writes the same again.
-/

namespace Monkey

open Relator

/-- Of the same pieces, sinks that are alike write the same bytes. -/
theorem Sink.Alike.takenOf {s s' : Sink} (h : s.Alike s') (pieces : List ByteArray) :
    s.takenOf pieces = s'.takenOf pieces := by
  induction pieces generalizing s s' with
  | nil => rfl
  | cons piece pieces ih =>
    have htaken : s.taken piece = s'.taken piece := by
      rw [taken, taken, h.refusal? piece]
    rw [Sink.takenOf, Sink.takenOf, htaken, ih (h.write piece)]

theorem Sink.judge_foldl (s : Sink) (pieces : List ByteArray) :
    (pieces.foldl Sink.write s).judge = s.judge := by
  induction pieces generalizing s with
  | nil => rfl
  | cons piece pieces ih => exact ih (s.write piece)

/-- A function in one of the values was made in the scope. -/
def CapturedBy (vs : List Value) (scope : ScopeId) : Prop := ∃ v ∈ vs, v.Captures scope

theorem Value.Captures.of_delivered {v : Value} {scope : ScopeId} (h : v.delivered.Captures scope) :
    v.Captures scope := by
  cases v with
  | returned v => exact h.of_part (.returned .self)
  | _ => exact h

theorem World.Reaches.mono {w : World} {roots roots' : ScopeId → Prop} {scope : ScopeId}
    (h : w.Reaches roots scope) (hroots : ∀ a, roots a → roots' a) : w.Reaches roots' scope :=
  h.invariant (fun a ha => .root (hroots a ha)) (fun _ ha _ link => .around ha link)
    fun _ ha _ _ bound _ captures => .captured ha bound captures

namespace Renaming

/-- What can be reached in the first world from the given scopes corresponds to something in the
second, and the sinks are alike. -/
structure Agrees (ρ : Renaming) (roots : ScopeId → Prop) (w w' : World) : Prop
    extends Between ρ w w' where
  /-- A scope that can be reached matches another one. -/
  reached : ∀ a, w.Reaches roots a → ∃ b, ρ.scopes a b ∧ ρ.Matches w w' a b
  /-- The sinks meet the same pieces in the same way. -/
  sinks : w.sink.Alike w'.sink

/-- From two worlds, evaluations come to values that correspond, in worlds that agree on what can be
reached then, and they write the same. -/
structure Ends (ρ : Renaming) (roots : ScopeId → Prop) (w w' : World) (v : Value) (x : World)
    (σ : Renaming) (u : Value) (x' : World) : Prop where
  /-- Only what is new has got new names. -/
  grown : σ.Extends ρ w w'
  /-- The values correspond. -/
  value : v.Renamed σ u
  /-- The worlds agree on what can be reached from where it could be before, or from the value. -/
  agrees : σ.Agrees (fun a => roots a ∨ v.Captures a) x x'
  /-- The same bytes are written. -/
  written : ∃ bytes, x.sink.written = w.sink.written ++ bytes ∧
    x'.sink.written = w'.sink.written ++ bytes

/-- Whenever the first evaluation comes to a value in the first world, the second one comes to one that
corresponds in the second world. -/
def Carries (ρ : Renaming) (roots : ScopeId → Prop) (w w' : World) (run run' : Run Value) : Prop :=
  ∀ v x, run.run w = some (v, x) →
    ∃ σ u x', run'.run w' = some (u, x') ∧ ρ.Ends roots w w' v x σ u x'

/-- This is so of whatever is evaluated in two scopes: expressions, statements and programs. -/
def CarriesEvaluation (ρ : Renaming) (depth : Nat) (a b : ScopeId) (w w' : World) : Prop :=
  (∀ e, ρ.Carries (· = a) w w' (Eval.expression (Eval.apply depth) a e)
    (Eval.expression (Eval.apply depth) b e)) ∧
  (∀ s, ρ.Carries (· = a) w w' (Eval.statement (Eval.apply depth) a s)
    (Eval.statement (Eval.apply depth) b s)) ∧
  ∀ program, ρ.Carries (· = a) w w' (Eval.program depth a program) (Eval.program depth b program)

/-- The renaming of those scopes only that can be reached. -/
def within (ρ : Renaming) (roots : ScopeId → Prop) (w : World) : Renaming :=
  ⟨fun a b => w.Reaches roots a ∧ ρ.scopes a b, ρ.identities⟩

variable {ρ σ : Renaming} {roots roots' : ScopeId → Prop} {w w' x x' : World}

theorem Agrees.anti (h : ρ.Agrees roots w w') (hroots : ∀ a, roots' a → roots a) :
    ρ.Agrees roots' w w' := ⟨h.toBetween, fun a ha => h.reached a (ha.mono hroots), h.sinks⟩

/-- The scopes that can be reached are closed: they correspond to others by themselves. -/
theorem Agrees.relates (h : ρ.Agrees roots w w') : (ρ.within roots w).Relates w w' where
  scopesUnique := ⟨fun _ _ _ hac hbc => h.scopesUnique.1 hac.2 hbc.2,
    fun _ _ _ hab hac => h.scopesUnique.2 hab.2 hac.2⟩
  identitiesUnique := h.identitiesUnique
  scopesExist a b hab := h.scopesExist a b hab.2
  identitiesExist := h.identitiesExist
  sinks := h.sinks
  alike := by
    rintro a b ⟨ha, hab⟩
    obtain ⟨c, hac, houter, hbinding⟩ := h.reached a ha
    obtain rfl := h.scopesUnique.2 hab hac
    refine ⟨rel_imp houter fun s hs t hst => ⟨ha.around hs, hst⟩,
      fun name => rel_imp (hbinding name) fun v hv u hvu => ?_⟩
    exact hvu.transfer (fun s _ hs hst => ⟨ha.captured hv hs, hst⟩) fun _ _ _ hij => hij

/-- A scope that can be reached from scopes with a name has a name. -/
theorem Relates.exists_scope (h : ρ.Relates w w') (hroots : ∀ a, roots a → ∃ b, ρ.scopes a b)
    {scope : ScopeId} (hscope : w.Reaches roots scope) : ∃ b, ρ.scopes scope b := by
  refine hscope.invariant hroots (fun a ha other link => ?_) fun a ha name v bound other hother => ?_
  · obtain ⟨b, hab⟩ := ha
    obtain ⟨outer, -, houter⟩ := exists_of_rel (h.alike a b hab).outer link
    exact ⟨outer, houter⟩
  · obtain ⟨b, hab⟩ := ha
    obtain ⟨u, -, hvu⟩ := exists_of_rel ((h.alike a b hab).binding name) bound
    exact hvu.exists_scope hother

/-- The names of all scopes, next to further names of what can be reached. -/
def beside (ρ σ : Renaming) : Renaming :=
  ⟨fun a b => ρ.scopes a b ∨ σ.scopes a b, σ.identities⟩

/-- What comes of the part that can be reached is compatible with the names of all other scopes. -/
theorem Agrees.between_beside (h : ρ.Agrees roots w w')
    (hleads : (ρ.within roots w).Leads w w' σ x x') : (ρ.beside σ).Between x x' where
  scopesUnique := by
    have hold : ∀ a b, σ.scopes a b → ρ.scopes a b ∨ w.scopes.size ≤ a ∧ w'.scopes.size ≤ b :=
      fun a b hab => (hleads.grown.newScopes a b hab).imp_left And.right
    have hexist := h.scopesExist
    constructor
    · rintro a b c (hac | hac) (hbc | hbc)
      · exact h.scopesUnique.1 hac hbc
      · rcases hold b c hbc with hbc | hnew
        · exact h.scopesUnique.1 hac hbc
        · exact absurd hnew.2 (Nat.not_le.2 (hexist a c hac).2)
      · rcases hold a c hac with hac | hnew
        · exact h.scopesUnique.1 hac hbc
        · exact absurd hnew.2 (Nat.not_le.2 (hexist b c hbc).2)
      · exact hleads.related.scopesUnique.1 hac hbc
    · rintro a b c (hab | hab) (hac | hac)
      · exact h.scopesUnique.2 hab hac
      · rcases hold a c hac with hac | hnew
        · exact h.scopesUnique.2 hab hac
        · exact absurd hnew.1 (Nat.not_le.2 (hexist a b hab).1)
      · rcases hold a b hab with hab | hnew
        · exact h.scopesUnique.2 hab hac
        · exact absurd hnew.1 (Nat.not_le.2 (hexist a c hac).1)
      · exact hleads.related.scopesUnique.2 hab hac
  identitiesUnique := hleads.related.identitiesUnique
  scopesExist := by
    rintro a b (hab | hab)
    · obtain ⟨ha, hb⟩ := h.scopesExist a b hab
      exact ⟨Nat.lt_of_lt_of_le ha hleads.scopes.1, Nat.lt_of_lt_of_le hb hleads.scopes.2⟩
    · exact hleads.related.scopesExist a b hab
  identitiesExist := hleads.related.identitiesExist

/-- Whatever comes of the part that can be reached is an outcome with respect to all names. -/
theorem Agrees.ends (h : ρ.Agrees roots w w') (hroots : ∀ a, roots a → ∃ b, ρ.scopes a b)
    (hleads : (ρ.within roots w).Leads w w' σ x x') {v u : Value} (hvu : v.Renamed σ u) :
    ρ.Ends roots w w' v x (ρ.beside σ) u x' where
  grown := {
    le := ⟨fun _ _ hab => .inl hab, hleads.grown.le.2⟩
    newScopes := by
      rintro a b (hab | hab)
      · exact .inl hab
      · exact (hleads.grown.newScopes a b hab).imp_left And.right
    newIdentities := hleads.grown.newIdentities }
  value := hvu.mono ⟨fun _ _ hab => .inr hab, fun _ _ hij => hij⟩
  agrees := {
    toBetween := h.between_beside hleads
    reached := fun a ha => by
      obtain ⟨b, hab⟩ : ∃ b, σ.scopes a b := by
        refine hleads.related.exists_scope ?_ ha
        rintro s (hs | hs)
        · obtain ⟨t, hst⟩ := hroots s hs
          exact ⟨t, hleads.grown.le.1 s t ⟨.root hs, hst⟩⟩
        · exact hvu.exists_scope hs
      have hmatches := hleads.related.alike a b hab
      exact ⟨b, .inr hab, hmatches.mono ⟨fun _ _ hab => .inr hab, fun _ _ hij => hij⟩⟩
    sinks := hleads.related.sinks }
  written := by
    obtain ⟨pieces, hp, hp'⟩ := hleads.offered
    refine ⟨w.sink.takenOf pieces, by rw [hp, Sink.written_foldl], ?_⟩
    rw [hp', Sink.written_foldl, h.sinks.takenOf]

/-- The value of a task carries over to a task that corresponds. -/
theorem Agrees.runs (h : ρ.Agrees roots w w') {t t' : Task} (ht : t.Renamed (ρ.within roots w) t')
    {depth : Nat} {v : Value} (hrun : Runs depth t w v x) :
    ∃ σ u x', Runs depth t' w' u x' ∧ ρ.Ends roots w w' v x σ u x' := by
  have hroots : ∀ a, roots a → ∃ b, ρ.scopes a b := fun a ha => by
    obtain ⟨b, hab, -⟩ := h.reached a (.root ha)
    exact ⟨b, hab⟩
  obtain ⟨σ, u, x', hrun', hvu, hleads⟩ := hrun.renamed h.relates ht
  exact ⟨_, u, x', hrun', h.ends hroots hleads hvu⟩

theorem Agrees.expression {a b : ScopeId} (h : ρ.Agrees (· = a) w w') (hab : ρ.scopes a b)
    (depth : Nat) (e : Expr Site) :
    ρ.Carries (· = a) w w' (Eval.expression (Eval.apply depth) a e)
      (Eval.expression (Eval.apply depth) b e) := by
  intro v x hrun
  have ht : (Task.expression a e).Renamed (ρ.within (· = a) w) (.expression b e) :=
    .expression e ⟨.root rfl, hab⟩
  obtain ⟨σ, u, x', hrun', hends⟩ := h.runs ht (runs_iff.2 hrun)
  exact ⟨σ, u, x', runs_iff.1 hrun', hends⟩

theorem Agrees.statement {a b : ScopeId} (h : ρ.Agrees (· = a) w w') (hab : ρ.scopes a b)
    (depth : Nat) (s : Stmt Site) :
    ρ.Carries (· = a) w w' (Eval.statement (Eval.apply depth) a s)
      (Eval.statement (Eval.apply depth) b s) := by
  intro v x hrun
  have ht : (Task.statement a s).Renamed (ρ.within (· = a) w) (.statement b s) :=
    .statement s ⟨.root rfl, hab⟩
  obtain ⟨σ, u, x', hrun', hends⟩ := h.runs ht (runs_iff.2 hrun)
  exact ⟨σ, u, x', runs_iff.1 hrun', hends⟩

/-- A value that is delivered ends an evaluation as the signal does that carried it. -/
theorem Ends.delivered {v u : Value} (h : ρ.Ends roots w w' v x σ u x') :
    ρ.Ends roots w w' v.delivered x σ u.delivered x' where
  grown := h.grown
  value := h.value.delivered
  agrees := h.agrees.anti fun _ ha => ha.imp_right Value.Captures.of_delivered
  written := h.written

theorem Agrees.program {a b : ScopeId} (h : ρ.Agrees (· = a) w w') (hab : ρ.scopes a b)
    (depth : Nat) (program : Program) :
    ρ.Carries (· = a) w w' (Eval.program depth a program) (Eval.program depth b program) := by
  intro v x hrun
  obtain ⟨u, hblock, rfl⟩ := program_eq_some_iff.1 hrun
  have ht : (Task.block a .null program).Renamed (ρ.within (· = a) w) (.block b .null program) :=
    .block program ⟨.root rfl, hab⟩ .null
  obtain ⟨σ, u', x', hrun', hends⟩ := h.runs ht hblock
  exact ⟨σ, u'.delivered, x', program_eq_some_iff.2 ⟨u', hrun', rfl⟩, hends.delivered⟩

theorem Agrees.evaluation {a b : ScopeId} (h : ρ.Agrees (· = a) w w') (hab : ρ.scopes a b)
    (depth : Nat) : ρ.CarriesEvaluation depth a b w w' :=
  ⟨h.expression hab depth, h.statement hab depth, h.program hab depth⟩

/-- Values with scopes that can be reached correspond also under the names of those scopes only. -/
theorem renamed_within {v u : Value} (hvu : v.Renamed ρ u) (hroots : ∀ a, v.Captures a → roots a) :
    v.Renamed (ρ.within roots w) u :=
  hvu.transfer (fun a _ ha hab => ⟨.root (hroots a ha), hab⟩) fun _ _ _ hij => hij

theorem Agrees.apply {f g : Value} {vs us : List Value}
    (h : ρ.Agrees (CapturedBy (f :: vs)) w w') (hfg : f.Renamed ρ g)
    (hvs : List.Forall₂ (Value.Renamed ρ) vs us) (depth : Nat) :
    ρ.Carries (CapturedBy (f :: vs)) w w' (Eval.apply depth f vs) (Eval.apply depth g us) := by
  intro v x hrun
  have hcallee : f.Renamed (ρ.within (CapturedBy (f :: vs)) w) g :=
    renamed_within hfg fun a ha => ⟨f, List.mem_cons_self, ha⟩
  have hcall : List.Forall₂ (Value.Renamed (ρ.within (CapturedBy (f :: vs)) w)) vs us :=
    forall₂_of_mem hvs fun v hv u hvu =>
      renamed_within hvu fun a ha => ⟨v, List.mem_cons_of_mem f hv, ha⟩
  have hrun' : Runs depth (.operate (.call f vs)) w v x := runs_iff.2 hrun
  obtain ⟨σ, u, x', hrun', hends⟩ := h.runs (.operate (.call hcallee hcall)) hrun'
  exact ⟨σ, u, x', runs_iff.1 hrun', hends⟩

end Renaming

namespace World

/-- All that can be reached from the given scopes exists: no scope is missing, and the identities in
what is bound have been given away. -/
structure Whole (w : World) (roots : ScopeId → Prop) : Prop where
  /-- The scopes exist. -/
  scopes : ∀ a, w.Reaches roots a → a < w.scopes.size
  /-- The identities have been given away. -/
  identities : ∀ a, w.Reaches roots a → ∀ name v, w.binding? name a = some v →
    ∀ i, v.Holds i → i < w.nextIdentity

/-- What can be reached, and every identity, stands for itself. -/
def unchanged (w : World) (roots : ScopeId → Prop) : Renaming :=
  ⟨fun a b => a = b ∧ w.Reaches roots a, fun i j => i = j ∧ i < w.nextIdentity⟩

variable {w w' x : World} {roots : ScopeId → Prop}

/-- A world agrees with every other one that has the same scopes where it can be reached. -/
theorem Whole.agrees (h : w.Whole roots)
    (hscopes : ∀ a, w.Reaches roots a → w'.scopes[a]? = w.scopes[a]?)
    (hidentities : w.nextIdentity ≤ w'.nextIdentity) (hsinks : w.sink.Alike w'.sink) :
    (w.unchanged roots).Agrees roots w w' where
  scopesUnique := by
    constructor
    · rintro a b c ⟨rfl, -⟩ ⟨rfl, -⟩
      rfl
    · rintro a b c ⟨rfl, -⟩ ⟨rfl, -⟩
      rfl
  identitiesUnique := by
    constructor
    · rintro i j k ⟨rfl, -⟩ ⟨rfl, -⟩
      rfl
    · rintro i j k ⟨rfl, -⟩ ⟨rfl, -⟩
      rfl
  scopesExist := by
    rintro a b ⟨rfl, ha⟩
    have hexists := h.scopes a ha
    have hsome := hscopes a ha
    rw [Array.getElem?_eq_getElem hexists, Array.getElem?_eq_some_iff] at hsome
    obtain ⟨hexists', -⟩ := hsome
    exact ⟨hexists, hexists'⟩
  identitiesExist := by
    rintro i j ⟨rfl, hi⟩
    exact ⟨hi, Nat.lt_of_lt_of_le hi hidentities⟩
  reached a ha := by
    refine ⟨a, ⟨rfl, ha⟩, ?_, fun name => ?_⟩
    · have hsame : w'.outer? a = w.outer? a := by
        rw [outer?, outer?, Scopes.outer?, Scopes.outer?, hscopes a ha]
      rw [hsame]
      cases hlink : w.outer? a with
      | none => exact .none
      | some outer => exact .some ⟨rfl, ha.around hlink⟩
    · have hsame : w'.binding? name a = w.binding? name a := by
        rw [binding?, binding?, Scopes.binding?, Scopes.binding?, hscopes a ha]
      rw [hsame]
      cases hv : w.binding? name a with
      | none => exact .none
      | some v =>
        exact .some (Value.renamed_refl (fun s hs => ⟨rfl, ha.captured hv hs⟩)
          fun i hi => ⟨rfl, h.identities a ha name v hv i hi⟩)
  sinks := hsinks

/-- What can be reached in a world that agrees with another one exists. -/
theorem Whole.of_agrees {ρ : Renaming} (h : ρ.Agrees roots w w') : w.Whole roots where
  scopes a ha := by
    obtain ⟨b, hab, -⟩ := h.reached a ha
    exact (h.scopesExist a b hab).1
  identities a ha name v bound i hi := by
    obtain ⟨b, -, hmatches⟩ := h.reached a ha
    obtain ⟨u, -, hvu⟩ := exists_of_rel (hmatches.binding name) bound
    obtain ⟨j, hij⟩ := hvu.exists_identity hi
    exact (h.identitiesExist i j hij).1

/-- A world agrees with itself. -/
theorem Whole.agrees_self (h : w.Whole roots) : (w.unchanged roots).Agrees roots w w :=
  h.agrees (fun _ _ => rfl) (Nat.le_refl _) fun _ _ => rfl

theorem binding?_initial (sink : Sink) (name : String) (scope : ScopeId) :
    (initial sink).binding? name scope = none := by
  cases scope with
  | zero => rfl
  | succ scope => rfl

/-- In a world before a session everything exists, as there is nothing but a scope. -/
theorem whole_initial (sink : Sink) : (initial sink).Whole (· = globalScope) where
  scopes a ha := by
    obtain rfl : a = globalScope := ha.isRoot (fun s hs => hs ▸ rfl) fun s _ name v bound => by
      rw [binding?_initial] at bound
      cases bound
    exact Nat.one_pos
  identities a _ name v bound := by
    rw [binding?_initial] at bound
    cases bound

theorem Whole.anti {roots' : ScopeId → Prop} (h : w.Whole roots)
    (hroots : ∀ a, roots' a → roots a) : w.Whole roots' where
  scopes a ha := h.scopes a (ha.mono hroots)
  identities a ha := h.identities a (ha.mono hroots)

/-- A program leaves everything that can be reached in existence. -/
theorem Whole.program {scope : ScopeId} (h : w.Whole (· = scope)) {depth : Nat} {program : Program}
    {v : Value} (hrun : (Eval.program depth scope program).run w = some (v, x)) :
    x.Whole fun a => a = scope ∨ v.Captures a := by
  obtain ⟨σ, u, x', -, hends⟩ :=
    h.agrees_self.program ⟨rfl, .root rfl⟩ depth program v x hrun
  exact .of_agrees hends.agrees

/-- Only the scopes and the count of identities decide what exists. -/
theorem Whole.congr (h : w.Whole roots) (hs : w'.scopes = w.scopes)
    (hi : w.nextIdentity ≤ w'.nextIdentity) : w'.Whole roots := by
  have houter : ∀ s, w'.outer? s = w.outer? s := fun s => by rw [outer?, outer?, hs]
  have hbinding : ∀ name s, w'.binding? name s = w.binding? name s := fun name s => by
    rw [binding?, binding?, hs]
  have hreaches : ∀ a, w'.Reaches roots a → w.Reaches roots a := fun a ha =>
    ha.invariant (fun _ h => .root h) (fun s hs other link => .around hs (houter s ▸ link))
      fun s hs name v bound other hother => .captured hs (hbinding name s ▸ bound) hother
  constructor
  · intro a ha
    rw [hs]
    exact h.scopes a (hreaches a ha)
  · intro a ha name v bound i hv
    exact Nat.lt_of_lt_of_le (h.identities a (hreaches a ha) name v (hbinding name a ▸ bound) i hv) hi

/-- Whatever comes of a source text, everything that can be reached stays in existence. -/
theorem Whole.interpret {scope : ScopeId} (h : w.Whole (· = scope)) (depth : Nat) (source : String) :
    (w.interpret depth scope source).2.Whole (· = scope) := by
  unfold World.interpret
  split
  · exact h
  · next tree _ =>
    have henrolled : (w.enrol tree).2.Whole (· = scope) := h.congr rfl (Nat.le_refl _)
    generalize w.enrol tree = enrolled at henrolled ⊢
    obtain ⟨program, w₁⟩ := enrolled
    simp only
    split
    · next value after result => exact (henrolled.program result).anti fun _ => .inl
    · exact h

/-- So it does when any number of source texts are run in one scope. -/
theorem Whole.session {scope : ScopeId} (h : w.Whole (· = scope)) (depth : Nat)
    (sources : List String) :
    (sources.foldl (fun w source => (w.interpret depth scope source).2) w).Whole (· = scope) := by
  induction sources generalizing w with
  | nil => exact h
  | cons source sources ih => exact ih (h.interpret depth source)

/-- Throughout a session, everything exists that can be reached from the scope of its programs. -/
theorem whole_session (sink : Sink) (depth : Nat) (sources : List String) :
    (sources.foldl (fun w source => (w.interpret depth globalScope source).2)
      (initial sink)).Whole (· = globalScope) :=
  (whole_initial sink).session depth sources

/-- A binding of a scope that cannot be reached can be changed. -/
theorem Whole.agrees_define (h : w.Whole roots) {scope : ScopeId} (hscope : ¬ w.Reaches roots scope)
    (name : String) (value : Value) :
    (w.unchanged roots).Agrees roots w (w.define scope name value) := by
  refine h.agrees (fun a ha => ?_) (Nat.le_refl _) fun _ _ => rfl
  have hne : scope ≠ a := fun heq => hscope (heq ▸ ha)
  rw [define, Array.getElem?_modify, if_neg hne]

/-- A call leaves everything as it is that could be reached before it; and if the sink takes all
pieces, then it still does. -/
theorem Whole.agrees_after_apply (h : w.Whole roots)
    (hsink : ∀ offered piece, w.sink.judge offered piece = none) {depth : Nat} {f v : Value}
    {vs : List Value} (hrun : (Eval.apply depth f vs).run w = some (v, x)) :
    (w.unchanged roots).Agrees roots w x := by
  have hevolves := evolves_of_apply hrun
  refine h.agrees (fun a ha => ?_) hevolves.identities fun later piece => ?_
  · exact hevolves.others a (h.scopes a ha) fun _ hmay => hmay
  · obtain ⟨pieces, hpieces⟩ := hevolves.sink
    rw [hsink, hpieces, Sink.judge_foldl, hsink]

/-- Values with scopes that can be reached, and with identities that have been given away, stand for
themselves. -/
theorem renamed_unchanged {v : Value} (hscopes : ∀ a, v.Captures a → roots a)
    (hidentities : ∀ i, v.Holds i → i < w.nextIdentity) : v.Renamed (w.unchanged roots) v :=
  Value.renamed_refl (fun a ha => ⟨rfl, .root (hscopes a ha)⟩) fun i hi => ⟨rfl, hidentities i hi⟩

/-- The same call in two worlds that agree on what it can reach. -/
theorem carries_apply {f : Value} {vs : List Value}
    (hidentities : ∀ v ∈ f :: vs, ∀ i, v.Holds i → i < w.nextIdentity)
    (h : (w.unchanged (CapturedBy (f :: vs))).Agrees (CapturedBy (f :: vs)) w w') (depth : Nat) :
    (w.unchanged (CapturedBy (f :: vs))).Carries (CapturedBy (f :: vs)) w w'
      (Eval.apply depth f vs) (Eval.apply depth f vs) := by
  have hself : ∀ v ∈ f :: vs, v.Renamed (w.unchanged (CapturedBy (f :: vs))) v := fun v hv =>
    renamed_unchanged (fun a ha => ⟨v, hv, ha⟩) (hidentities v hv)
  exact h.apply (hself f List.mem_cons_self)
    (List.forall₂_same.2 fun v hv => hself v (List.mem_cons_of_mem f hv)) depth

end World

/-- Evaluation depends only on what can be reached. If two worlds agree on that, under any one-to-one
renaming of scopes and identities, then whenever an expression, a statement, a program or a call comes
to a value in the first, it does in the second, the values correspond, the worlds agree again, and the
same is written. In particular, nothing matters that is bound where it cannot be reached; what is bound
where a function is called from does not matter to the function, unless it can be reached from the
function or from an argument; and a function that is called again with the same arguments gives and
writes the same again, up to the names of what is made, if the sink takes everything. -/
theorem evaluation_depends_on_reachable (depth : Nat) :
    (∀ (ρ : Renaming) (w w' : World) (a b : ScopeId), ρ.scopes a b → ρ.Agrees (· = a) w w' →
      ρ.CarriesEvaluation depth a b w w') ∧
    (∀ (ρ : Renaming) (w w' : World) (f g : Value) (vs us : List Value), f.Renamed ρ g →
      List.Forall₂ (Value.Renamed ρ) vs us → ρ.Agrees (CapturedBy (f :: vs)) w w' →
        ρ.Carries (CapturedBy (f :: vs)) w w' (Eval.apply depth f vs) (Eval.apply depth g us)) ∧
    (∀ (w w' : World) (a : ScopeId), w.Whole (· = a) →
      (∀ s, w.Reaches (· = a) s → w'.scopes[s]? = w.scopes[s]?) →
      w.nextIdentity ≤ w'.nextIdentity → w.sink.Alike w'.sink →
        (w.unchanged (· = a)).CarriesEvaluation depth a a w w') ∧
    ∀ (w : World) (f : Value) (vs : List Value), w.Whole (CapturedBy (f :: vs)) →
      (∀ v ∈ f :: vs, ∀ i, v.Holds i → i < w.nextIdentity) →
        (∀ scope name value, ¬ w.Reaches (CapturedBy (f :: vs)) scope →
          (w.unchanged (CapturedBy (f :: vs))).Carries (CapturedBy (f :: vs)) w
            (w.define scope name value) (Eval.apply depth f vs) (Eval.apply depth f vs)) ∧
        ((∀ offered piece, w.sink.judge offered piece = none) →
          ∀ v x, (Eval.apply depth f vs).run w = some (v, x) →
            ∃ σ u y, (Eval.apply depth f vs).run x = some (u, y) ∧
              (w.unchanged (CapturedBy (f :: vs))).Ends (CapturedBy (f :: vs)) w x v x σ u y) := by
  refine ⟨fun ρ w w' a b hab h => h.evaluation hab depth,
    fun ρ w w' f g vs us hfg hvs h => h.apply hfg hvs depth,
    fun w w' a hwhole hscopes hnext hsinks => ?_, fun w f vs hwhole hidentities => ⟨?_, ?_⟩⟩
  · exact (hwhole.agrees hscopes hnext hsinks).evaluation ⟨rfl, .root rfl⟩ depth
  · intro scope name value hscope
    exact World.carries_apply hidentities (hwhole.agrees_define hscope name value) depth
  · intro hsink v x hrun
    exact World.carries_apply hidentities (hwhole.agrees_after_apply hsink hrun) depth v x hrun

/-- A function that copies an array is called in two sessions that have numbered their scopes and arrays
differently, and the copies correspond. In the first session, what the other scope binds does not
matter, and a second call makes a copy of its own that corresponds to the first one. -/
theorem copying_depends_on_reachable :
    let body : Program := [.expression (.call (.name "push") [.name "x", .integer 2])]
    let call : Expr Site := .call (.function ⟨0, [0, 0]⟩ [] body) []
    let w : World := ⟨#[⟨[("x", .array 0 [.integer 1])], none⟩, ⟨[], none⟩], 2, 1, .unlimited⟩
    let w' : World := ⟨#[⟨[], none⟩, ⟨[("x", .array 4 [.integer 1])], none⟩], 6, 1, .unlimited⟩
    let ρ : Renaming := ⟨fun a b => a = 0 ∧ b = 1, fun i j => i < 2 ∧ j = i + 4⟩
    let f : Value := .function 1 ⟨[], body, ⟨0, [0, 0]⟩, 0⟩
    let g : Value := .function 5 ⟨[], body, ⟨0, [0, 0]⟩, 1⟩
    let other : World := w.define 1 "y" f
    let copy (i : Identity) : Value := .array i [.integer 1, .integer 2]
    ∃ x y, (Eval.expression (Eval.apply 1) 0 call).run w = some (copy 3, x) ∧
      (Eval.apply 1 f []).run w = some (copy 2, y) ∧
      (∃ σ u x', (Eval.expression (Eval.apply 1) 1 call).run w' = some (u, x') ∧
        ρ.Ends (· = 0) w w' (copy 3) x σ u x') ∧
      (∃ σ u y', (Eval.apply 1 g []).run w' = some (u, y') ∧
        ρ.Ends (CapturedBy [f]) w w' (copy 2) y σ u y') ∧
      (∃ σ u x', (Eval.expression (Eval.apply 1) 0 call).run other = some (u, x') ∧
        (w.unchanged (· = 0)).Ends (· = 0) w other (copy 3) x σ u x') ∧
      (∃ σ u y', (Eval.apply 1 f []).run other = some (u, y') ∧
        (w.unchanged (CapturedBy [f])).Ends (CapturedBy [f]) w other (copy 2) y σ u y') ∧
      ∃ σ u z, (Eval.apply 1 f []).run y = some (u, z) ∧
        (w.unchanged (CapturedBy [f])).Ends (CapturedBy [f]) w y (copy 2) y σ u z := by
  intro body call w w' ρ f g other copy
  have hbinding : ∀ name v, w.binding? name 0 = some v → v = .array 0 [.integer 1] := by
    intro name v bound
    by_cases hname : name = "x"
    · subst hname
      exact (Option.some.inj bound).symm
    · simp [w, World.binding?, Scopes.binding?, List.lookup_cons, beq_eq_false_iff_ne.2 hname] at bound
  have hbare : ∀ a, ¬ (Value.array 0 [.integer 1]).Captures a := by
    simp [Value.captures_array, Value.not_captures_integer]
  have hreaches : ∀ roots : ScopeId → Prop, (∀ a, roots a → a = 0) →
      ∀ a, w.Reaches roots a → a = 0 := by
    intro roots hroots a ha
    have ha' : w.Reaches (· = 0) a := ha.mono hroots
    refine ha'.isRoot (fun s hs => hs ▸ rfl) fun s hs name v bound => ?_
    subst hs
    exact hbinding name v bound ▸ hbare
  have hwhole : ∀ roots : ScopeId → Prop, (∀ a, roots a → a = 0) → w.Whole roots := by
    refine fun roots hroots => ⟨fun a ha => ?_, fun a ha name v bound i hi => ?_⟩
    · obtain rfl := hreaches roots hroots a ha
      decide
    · obtain rfl := hreaches roots hroots a ha
      obtain rfl : i = 0 := by
        simpa [hbinding name v bound, Value.holds_array, Value.not_holds_integer] using hi
      decide
  have hf : ∀ a, CapturedBy [f] a → a = 0 := by
    simp [CapturedBy, f, Value.captures_function]
  have hidentities : ∀ v ∈ [f], ∀ i, v.Holds i → i < w.nextIdentity := by
    simp [f, w, Value.holds_function]
  have hagrees : ρ.Agrees (· = 0) w w' := {
    scopesUnique := ⟨fun _ _ _ h h' => h.1.trans h'.1.symm, fun _ _ _ h h' => h.2.trans h'.2.symm⟩
    identitiesUnique := ⟨fun _ _ _ h h' => Nat.add_right_cancel (h.2.symm.trans h'.2),
      fun _ _ _ h h' => h.2.trans h'.2.symm⟩
    scopesExist := by
      rintro a b ⟨rfl, rfl⟩
      decide
    identitiesExist := by
      rintro i j ⟨hi, rfl⟩
      exact ⟨hi, Nat.add_lt_add_right hi 4⟩
    reached := fun a ha => by
      obtain rfl := hreaches _ (fun _ h => h) a ha
      refine ⟨1, ⟨rfl, rfl⟩, .none, fun name => ?_⟩
      by_cases hname : name = "x"
      · subst hname
        exact .some (.array ⟨Nat.two_pos, rfl⟩ (.cons (.integer 1) .nil))
      · simp [w, w', World.binding?, Scopes.binding?, List.lookup_cons, beq_eq_false_iff_ne.2 hname]
    sinks := fun _ _ => rfl }
  have hfg : f.Renamed ρ g := .function ⟨Nat.one_lt_two, rfl⟩ ⟨rfl, rfl⟩
  have hother : ∀ s, w.Reaches (· = 0) s → other.scopes[s]? = w.scopes[s]? := fun s hs => by
    obtain rfl := hreaches _ (fun _ h => h) s hs
    rfl
  have hunseen : ¬ w.Reaches (CapturedBy [f]) 1 := fun h => Nat.one_ne_zero (hreaches _ hf 1 h)
  obtain ⟨hscopes, hcall, hsame, hself⟩ := evaluation_depends_on_reachable 1
  obtain ⟨hdefine, hagain⟩ := hself w f [] (hwhole _ hf) hidentities
  -- The world in which the function is called, up to the identities that are taken.
  let u (n : Identity) : World := { w with nextIdentity := n }
  have hbody (n : Identity) : ∃ z, Runs 0 (.block 2 .null body) ((u n).openScope (some 0) []) (copy n) z :=
    ⟨_, .next rfl (.become rfl (.next rfl
      (runs_builtin (.further rfl rfl (.nowhere rfl rfl)) rfl) rfl
      (.next rfl (runs_bound (.further rfl rfl (.here rfl))) rfl
        (.next rfl (.done rfl) rfl (.become rfl (.done rfl)))))) rfl (.done rfl)⟩
  obtain ⟨x, hfirst⟩ := hbody 3
  have hrun : Runs 1 (.expression 0 call) w (copy 3) x :=
    .next rfl (.done rfl) rfl (.become rfl (.enter rfl hfirst))
  obtain ⟨y, hlast⟩ := hbody 2
  have happly : Runs 1 (.operate (.call f [])) w (copy 2) y := .enter rfl hlast
  rw [runs_iff] at hrun happly
  refine ⟨x, y, hrun, happly, ?_, ?_, ?_, ?_, ?_⟩
  · exact (hscopes ρ w w' 0 1 ⟨rfl, rfl⟩ hagrees).1 call (copy 3) x hrun
  · exact hcall ρ w w' f g [] [] hfg .nil (hagrees.anti hf) (copy 2) y happly
  · exact (hsame w other 0 (hwhole _ fun _ h => h) hother (Nat.le_refl _) fun _ _ => rfl).1 call
      (copy 3) x hrun
  · exact hdefine 1 "y" f hunseen (copy 2) y happly
  · exact hagain (fun _ _ => rfl) (copy 2) y happly

end Monkey
