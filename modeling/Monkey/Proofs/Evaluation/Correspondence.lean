import Monkey.Proofs.Evaluation.Confinement
import Monkey.Proofs.Evaluation.Renaming
import Monkey.Proofs.Evaluation.Search

/-!
# Worlds under other names

A renaming relates two worlds when it is one-to-one, names only what exists, and every scope has
around it and binds what the scope that it stands for has around it and binds. Whatever a task does in
the first world, the task that corresponds to it does in the second: new scopes and identities stand
for each other, and the same is written. This is shown for one move first and then for whole runs.
-/

namespace Monkey

open Relator

/-- Two sinks meet the same further pieces in the same way. -/
def Sink.Alike (s s' : Sink) : Prop :=
  ∀ later piece, s.judge (later ++ s.offered) piece = s'.judge (later ++ s'.offered) piece

theorem Sink.Alike.refusal? {s s' : Sink} (h : s.Alike s') (piece : ByteArray) :
    s.refusal? piece = s'.refusal? piece := h [] piece

theorem Sink.Alike.write {s s' : Sink} (h : s.Alike s') (piece : ByteArray) :
    (s.write piece).Alike (s'.write piece) := by
  intro later other
  have hlater := h (later ++ [piece]) other
  rw [List.append_assoc, List.append_assoc, List.singleton_append, List.singleton_append] at hlater
  exact hlater

namespace Renaming

/-- One renaming is below another one that has all its names. -/
instance : LE Renaming where
  le ρ σ := (∀ a b, ρ.scopes a b → σ.scopes a b) ∧ ∀ i j, ρ.identities i j → σ.identities i j

/-- The renaming gives different names to different things, and only to things that exist. -/
structure Between (ρ : Renaming) (w w' : World) : Prop where
  /-- Different scopes stand for different scopes. -/
  scopesUnique : BiUnique ρ.scopes
  /-- Different identities stand for different identities. -/
  identitiesUnique : BiUnique ρ.identities
  /-- The scopes exist. -/
  scopesExist : ∀ a b, ρ.scopes a b → a < w.scopes.size ∧ b < w'.scopes.size
  /-- The identities have been given away. -/
  identitiesExist : ∀ i j, ρ.identities i j → i < w.nextIdentity ∧ j < w'.nextIdentity

/-- A scope of one world has around it, and binds, what corresponds to what a scope of the other has
around it and binds. -/
structure Matches (ρ : Renaming) (w w' : World) (a b : ScopeId) : Prop where
  /-- The scopes around them stand for each other. -/
  outer : Option.Rel ρ.scopes (w.outer? a) (w'.outer? b)
  /-- The same names are bound, to values that correspond. -/
  binding : ∀ name, Option.Rel (Value.Renamed ρ) (w.binding? name a) (w'.binding? name b)

/-- All scopes that stand for each other are alike, and so are the sinks. -/
structure Relates (ρ : Renaming) (w w' : World) : Prop extends Between ρ w w' where
  /-- A scope matches the one that it stands for. -/
  alike : ∀ a b, ρ.scopes a b → ρ.Matches w w' a b
  /-- The sinks meet the same pieces in the same way. -/
  sinks : w.sink.Alike w'.sink

/-- A renaming extends another one by names for what does not exist yet. -/
structure Extends (σ ρ : Renaming) (w w' : World) : Prop where
  /-- What has a name keeps it. -/
  le : ρ ≤ σ
  /-- All other scopes are new. -/
  newScopes : ∀ a b, σ.scopes a b → ρ.scopes a b ∨ w.scopes.size ≤ a ∧ w'.scopes.size ≤ b
  /-- All other identities are new. -/
  newIdentities : ∀ i j, σ.identities i j →
    ρ.identities i j ∨ w.nextIdentity ≤ i ∧ w'.nextIdentity ≤ j

/-- Two worlds that correspond lead to two others that do, under more names, and the same pieces are
offered to both sinks on the way. -/
structure Leads (ρ : Renaming) (w w' : World) (σ : Renaming) (x x' : World) : Prop where
  /-- The new names are those of what is new. -/
  grown : σ.Extends ρ w w'
  /-- The worlds correspond in the end. -/
  related : σ.Relates x x'
  /-- No scope is lost. -/
  scopes : w.scopes.size ≤ x.scopes.size ∧ w'.scopes.size ≤ x'.scopes.size
  /-- No identity is given away twice. -/
  identities : w.nextIdentity ≤ x.nextIdentity ∧ w'.nextIdentity ≤ x'.nextIdentity
  /-- The sinks are offered the same. -/
  offered : ∃ pieces : List ByteArray,
    x.sink = pieces.foldl Sink.write w.sink ∧ x'.sink = pieces.foldl Sink.write w'.sink

variable {ρ σ τ : Renaming} {w w' x x' y y' : World}

theorem Extends.refl (ρ : Renaming) (w w' : World) : ρ.Extends ρ w w' where
  le := ⟨fun _ _ h => h, fun _ _ h => h⟩
  newScopes _ _ h := .inl h
  newIdentities _ _ h := .inl h

theorem Leads.refl (h : ρ.Relates w w') : ρ.Leads w w' ρ w w' where
  grown := .refl ρ w w'
  related := h
  scopes := ⟨Nat.le_refl _, Nat.le_refl _⟩
  identities := ⟨Nat.le_refl _, Nat.le_refl _⟩
  offered := ⟨[], rfl, rfl⟩

theorem Leads.trans (h : ρ.Leads w w' σ x x') (h' : σ.Leads x x' τ y y') : ρ.Leads w w' τ y y' where
  grown := {
    le := ⟨fun a b hab => h'.grown.le.1 a b (h.grown.le.1 a b hab),
      fun i j hij => h'.grown.le.2 i j (h.grown.le.2 i j hij)⟩
    newScopes := fun a b hab => by
      rcases h'.grown.newScopes a b hab with hab | ⟨ha, hb⟩
      · exact h.grown.newScopes a b hab
      · exact .inr ⟨Nat.le_trans h.scopes.1 ha, Nat.le_trans h.scopes.2 hb⟩
    newIdentities := fun i j hij => by
      rcases h'.grown.newIdentities i j hij with hij | ⟨hi, hj⟩
      · exact h.grown.newIdentities i j hij
      · exact .inr ⟨Nat.le_trans h.identities.1 hi, Nat.le_trans h.identities.2 hj⟩ }
  related := h'.related
  scopes := ⟨Nat.le_trans h.scopes.1 h'.scopes.1, Nat.le_trans h.scopes.2 h'.scopes.2⟩
  identities := ⟨Nat.le_trans h.identities.1 h'.identities.1,
    Nat.le_trans h.identities.2 h'.identities.2⟩
  offered := by
    obtain ⟨pieces, hp, hp'⟩ := h.offered
    obtain ⟨further, hf, hf'⟩ := h'.offered
    refine ⟨pieces ++ further, ?_, ?_⟩
    · rw [hf, hp, List.foldl_append]
    · rw [hf', hp', List.foldl_append]

end Renaming

variable {ρ σ : Renaming} {w w' x x' : World}

/-- Values that correspond do so under more names. -/
theorem Value.Renamed.mono {v u : Value} (h : v.Renamed ρ u) (hle : ρ ≤ σ) : v.Renamed σ u :=
  h.transfer (fun a b _ => hle.1 a b) fun i j _ => hle.2 i j

theorem Renaming.Matches.mono {a b : ScopeId} (h : ρ.Matches w w' a b)
    (hle : ρ ≤ σ) : σ.Matches w w' a b where
  outer := rel_imp h.outer fun c _ d => hle.1 c d
  binding name := rel_imp (h.binding name) fun _ _ _ hvu => hvu.mono hle

namespace Renaming

/-- A name is found in both worlds, with values that correspond, or in none. -/
theorem Relates.lookup (h : ρ.Relates w w') {a b : ScopeId} (hab : ρ.scopes a b) (name : String) :
    Option.Rel (Value.Renamed ρ) (w.lookup a name) (w'.lookup b name) := by
  cases hsearch : w.search a name with
  | some result =>
    obtain ⟨result', hfinds, hresult⟩ := (World.search_eq_some_iff.1 hsearch).transfer
      (fun c d hcd => (h.alike c d hcd).binding name) (fun c d hcd => (h.alike c d hcd).outer) hab
    rw [World.lookup, World.lookup, hsearch, World.search_eq_some_iff.2 hfinds]
    exact hresult
  | none =>
    -- If the other search came to an end, this one would go the same way.
    have hsearch' : w'.search b name = none := by
      by_contra hends
      obtain ⟨result', hresult'⟩ := Option.ne_none_iff_exists'.1 hends
      obtain ⟨result, hfinds, -⟩ := (World.search_eq_some_iff.1 hresult').transfer
        (fun d c hcd => rel_flip ((h.alike c d hcd).binding name))
        (fun d c hcd => rel_flip (h.alike c d hcd).outer) hab
      cases hsearch.symm.trans (World.search_eq_some_iff.2 hfinds)
    rw [World.lookup, World.lookup, hsearch, hsearch']
    exact .none

theorem Relates.named (h : ρ.Relates w w') {a b : ScopeId} (hab : ρ.scopes a b) (text : String) :
    (w.named a text).Renamed ρ (w'.named b text) := by
  have hlookup := h.lookup hab text
  unfold World.named
  generalize w.lookup a text = o at hlookup ⊢
  generalize w'.lookup b text = o' at hlookup ⊢
  cases hlookup with
  | some hvu => exact hvu
  | none =>
    cases Builtin.ofName? text with
    | some b => exact .builtin b
    | none => exact .error _

/-- Nothing but the scopes, the count of identities and the sinks matters. -/
theorem Relates.congr (h : ρ.Relates w w') (hs : x.scopes = w.scopes) (hs' : x'.scopes = w'.scopes)
    (hi : w.nextIdentity ≤ x.nextIdentity) (hi' : w'.nextIdentity ≤ x'.nextIdentity)
    (hsinks : x.sink.Alike x'.sink) : ρ.Relates x x' where
  scopesUnique := h.scopesUnique
  identitiesUnique := h.identitiesUnique
  scopesExist a b hab := by
    rw [hs, hs']
    exact h.scopesExist a b hab
  identitiesExist i j hij := by
    obtain ⟨hiw, hjw⟩ := h.identitiesExist i j hij
    exact ⟨Nat.lt_of_lt_of_le hiw hi, Nat.lt_of_lt_of_le hjw hi'⟩
  alike a b hab := by
    obtain ⟨houter, hbinding⟩ := h.alike a b hab
    refine ⟨?_, fun name => ?_⟩
    · rw [World.outer?, World.outer?, hs, hs']
      exact houter
    · rw [World.binding?, World.binding?, hs, hs']
      exact hbinding name
  sinks := hsinks

/-- A name is bound in both worlds. -/
theorem Relates.define (h : ρ.Relates w w') {a b : ScopeId} (hab : ρ.scopes a b) (name : String)
    {v u : Value} (hvu : v.Renamed ρ u) :
    ρ.Leads w w' ρ (w.define a name v) (w'.define b name u) where
  grown := .refl ρ w w'
  related := {
    scopesUnique := h.scopesUnique
    identitiesUnique := h.identitiesUnique
    scopesExist := fun c d hcd => by
      simpa only [World.define, Array.size_modify] using h.scopesExist c d hcd
    identitiesExist := h.identitiesExist
    alike := fun c d hcd => {
      outer := by
        rw [World.outer?_define, World.outer?_define]
        exact (h.alike c d hcd).outer
      binding := fun sought => by
        obtain ⟨ha, hb⟩ := h.scopesExist a b hab
        rw [w.binding?_define ha, w'.binding?_define hb]
        have hsame : c = a ↔ d = b := rel_eq h.scopesUnique hcd hab
        by_cases hc : c = a ∧ sought = name
        · rw [if_pos hc, if_pos ⟨hsame.1 hc.1, hc.2⟩]
          exact .some hvu
        · rw [if_neg hc, if_neg fun hd => hc ⟨hsame.2 hd.1, hd.2⟩]
          exact (h.alike c d hcd).binding sought }
    sinks := h.sinks }
  scopes := by simp only [World.define, Array.size_modify, Nat.le_refl, and_self]
  identities := ⟨Nat.le_refl _, Nat.le_refl _⟩
  offered := ⟨[], rfl, rfl⟩

/-- The same bytes are offered in both worlds. -/
theorem Relates.write (h : ρ.Relates w w') (bytes : ByteArray) :
    ρ.Leads w w' ρ (w.write bytes) (w'.write bytes) where
  grown := .refl ρ w w'
  related := h.congr rfl rfl (Nat.le_refl _) (Nat.le_refl _) (h.sinks.write bytes)
  scopes := ⟨Nat.le_refl _, Nat.le_refl _⟩
  identities := ⟨Nat.le_refl _, Nat.le_refl _⟩
  offered := ⟨[bytes], rfl, rfl⟩

end Renaming

/-- A relation stays one-to-one when one pair is added of which it names neither. -/
theorem biUnique_or {α β : Type} {R : α → β → Prop} (h : BiUnique R) {a : α} {b : β}
    (ha : ∀ c, ¬ R a c) (hb : ∀ c, ¬ R c b) : BiUnique fun c d => R c d ∨ c = a ∧ d = b := by
  constructor
  · intro c e d hcd hed
    rcases hcd with hcd | hcd
    · rcases hed with hed | hed
      · exact h.1 hcd hed
      · exact absurd (hed.2 ▸ hcd) (hb c)
    · rcases hed with hed | hed
      · exact absurd (hcd.2 ▸ hed) (hb e)
      · exact hcd.1.trans hed.1.symm
  · intro c d e hcd hce
    rcases hcd with hcd | hcd
    · rcases hce with hce | hce
      · exact h.2 hcd hce
      · exact absurd (hce.1 ▸ hcd) (ha d)
    · rcases hce with hce | hce
      · exact absurd (hcd.1 ▸ hce) (ha e)
      · exact hcd.2.trans hce.2.symm

namespace Renaming

/-- The renaming with a further pair of identities. -/
def withIdentity (ρ : Renaming) (i j : Identity) : Renaming :=
  ⟨ρ.scopes, fun k l => ρ.identities k l ∨ k = i ∧ l = j⟩

/-- The renaming with a further pair of scopes. -/
def withScope (ρ : Renaming) (a b : ScopeId) : Renaming :=
  ⟨fun c d => ρ.scopes c d ∨ c = a ∧ d = b, ρ.identities⟩

/-- An identity is taken in both worlds, and the two stand for each other. -/
theorem Relates.takeIdentity (h : ρ.Relates w w') :
    ρ.Leads w w' (ρ.withIdentity w.nextIdentity w'.nextIdentity) w.takeIdentity.2
      w'.takeIdentity.2 := by
  have hgrown : (ρ.withIdentity w.nextIdentity w'.nextIdentity).Extends ρ w w' := {
    le := ⟨fun _ _ h => h, fun _ _ h => .inl h⟩
    newScopes := fun _ _ h => .inl h
    newIdentities := by
      rintro i j (hij | ⟨rfl, rfl⟩)
      · exact .inl hij
      · exact .inr ⟨Nat.le_refl _, Nat.le_refl _⟩ }
  refine ⟨hgrown, ⟨⟨h.scopesUnique, ?_, h.scopesExist, ?_⟩, fun a b hab => ?_, h.sinks⟩,
    ⟨Nat.le_refl _, Nat.le_refl _⟩, ⟨Nat.le_succ _, Nat.le_succ _⟩, [], rfl, rfl⟩
  · refine biUnique_or h.identitiesUnique (fun j hj => ?_) fun i hi => ?_
    · exact Nat.lt_irrefl _ (h.identitiesExist _ _ hj).1
    · exact Nat.lt_irrefl _ (h.identitiesExist _ _ hi).2
  · rintro i j (hij | ⟨rfl, rfl⟩)
    · obtain ⟨hi, hj⟩ := h.identitiesExist i j hij
      exact ⟨Nat.lt_succ_of_lt hi, Nat.lt_succ_of_lt hj⟩
    · exact ⟨Nat.lt_succ_self _, Nat.lt_succ_self _⟩
  · obtain ⟨houter, hbinding⟩ := (h.alike a b hab).mono hgrown.le
    exact ⟨houter, hbinding⟩

end Renaming

/-- Binding the same names to values that correspond keeps bindings alike. -/
theorem Bindings.rel_lookup_bindAll {R : Value → Value → Prop} {pairs pairs' : List (String × Value)}
    (hpairs : List.Forall₂ (fun p q => p.1 = q.1 ∧ R p.2 q.2) pairs pairs') {bs bs' : Bindings}
    (h : ∀ name, Option.Rel R (bs.lookup name) (bs'.lookup name)) (name : String) :
    Option.Rel R ((bs.bindAll pairs).lookup name) ((bs'.bindAll pairs').lookup name) := by
  induction hpairs generalizing bs bs' with
  | nil => exact h name
  | @cons p q ps qs hpq _ ih =>
    refine ih fun sought => ?_
    rw [lookup_bind, lookup_bind, hpq.1]
    by_cases hs : sought = q.1
    · rw [if_pos hs, if_pos hs]
      exact .some hpq.2
    · rw [if_neg hs, if_neg hs]
      exact h sought

namespace Renaming

/-- A scope is opened in both worlds, and the two stand for each other. -/
theorem Relates.openScope (h : ρ.Relates w w') {a b : ScopeId} (hab : ρ.scopes a b)
    {pairs pairs' : List (String × Value)}
    (hpairs : List.Forall₂ (fun p q => p.1 = q.1 ∧ p.2.Renamed ρ q.2) pairs pairs') :
    ρ.Leads w w' (ρ.withScope w.nextScope w'.nextScope) (w.openScope (some a) pairs)
      (w'.openScope (some b) pairs') := by
  have hgrown : (ρ.withScope w.nextScope w'.nextScope).Extends ρ w w' := {
    le := ⟨fun _ _ h => .inl h, fun _ _ h => h⟩
    newScopes := by
      rintro c d (hcd | ⟨rfl, rfl⟩)
      · exact .inl hcd
      · exact .inr ⟨Nat.le_refl _, Nat.le_refl _⟩
    newIdentities := fun _ _ h => .inl h }
  have hsize : (w.openScope (some a) pairs).scopes.size = w.scopes.size + 1 := Array.size_push _
  have hsize' : (w'.openScope (some b) pairs').scopes.size = w'.scopes.size + 1 := Array.size_push _
  refine ⟨hgrown, ⟨⟨?_, h.identitiesUnique, ?_, h.identitiesExist⟩, ?_, h.sinks⟩, ?_,
    ⟨Nat.le_refl _, Nat.le_refl _⟩, [], rfl, rfl⟩
  · refine biUnique_or h.scopesUnique (fun d hd => ?_) fun c hc => ?_
    · exact Nat.lt_irrefl _ (h.scopesExist _ _ hd).1
    · exact Nat.lt_irrefl _ (h.scopesExist _ _ hc).2
  · rintro c d (hcd | ⟨rfl, rfl⟩)
    · obtain ⟨hc, hd⟩ := h.scopesExist c d hcd
      rw [hsize, hsize']
      exact ⟨Nat.lt_succ_of_lt hc, Nat.lt_succ_of_lt hd⟩
    · rw [hsize, hsize']
      exact ⟨Nat.lt_succ_self _, Nat.lt_succ_self _⟩
  · rintro c d (hcd | ⟨rfl, rfl⟩)
    · obtain ⟨hc, hd⟩ := h.scopesExist c d hcd
      obtain ⟨houter, hbinding⟩ := (h.alike c d hcd).mono hgrown.le
      refine ⟨?_, fun name => ?_⟩
      · rw [w.outer?_openScope_old _ _ hc, w'.outer?_openScope_old _ _ hd]
        exact houter
      · rw [w.binding?_openScope_old _ _ _ hc, w'.binding?_openScope_old _ _ _ hd]
        exact hbinding name
    · refine ⟨?_, fun name => ?_⟩
      · rw [w.outer?_openScope_new, w'.outer?_openScope_new]
        exact .some (.inl hab)
      · rw [w.binding?_openScope_new, w'.binding?_openScope_new]
        refine Bindings.rel_lookup_bindAll (hpairs.imp fun p q hpq => ?_) (fun _ => .none) name
        exact ⟨hpq.1, hpq.2.mono hgrown.le⟩
  · rw [hsize, hsize']
    exact ⟨Nat.le_succ _, Nat.le_succ _⟩

end Renaming

/-- Writing lines does the same in both worlds. -/
theorem Builtin.leads_writeLines {vs us : List Value} (hvs : List.Forall₂ (Value.Renamed ρ) vs us)
    (h : ρ.Relates w w') :
    Agree (Value.Renamed ρ) (writeLines vs w).1 (writeLines us w').1 ∧
      ρ.Leads w w' ρ (writeLines vs w).2 (writeLines us w').2 := by
  induction hvs generalizing w w' with
  | nil => exact ⟨.ok .null, .refl h⟩
  | @cons v u vs us hvu _ ih =>
    have hwrite := h.write (line v)
    rw [writeLines, writeLines, ← line_eq hvu, ← h.sinks.refusal? (line v)]
    cases w.sink.refusal? (line v) with
    | some refusal => exact ⟨.error _, hwrite⟩
    | none =>
      obtain ⟨hresult, hleads⟩ := ih hwrite.related
      exact ⟨hresult, hwrite.trans hleads⟩

/-- A new array corresponds to another one if the elements do. -/
theorem Renaming.Relates.newArray (h : ρ.Relates w w') {vs us : List Value}
    (hvs : List.Forall₂ (Value.Renamed ρ) vs us) :
    ∃ σ, ρ.Leads w w' σ (w.newArray vs).2 (w'.newArray us).2 ∧
      (w.newArray vs).1.Renamed σ (w'.newArray us).1 := by
  have hleads := h.takeIdentity
  exact ⟨_, hleads, .array (.inr ⟨rfl, rfl⟩) (hvs.imp fun _ _ hvu => hvu.mono hleads.grown.le)⟩

theorem Table.EntryRenamed.mono {e d : HashKey × Value × Value} (h : Table.EntryRenamed ρ e d)
    (hle : ρ ≤ σ) : Table.EntryRenamed σ e d := by
  cases h with
  | mk hashKey key value => exact .mk hashKey (key.mono hle) (value.mono hle)

/-- A new hash corresponds to another one if the entries do. -/
theorem Renaming.Relates.newHash (h : ρ.Relates w w') {t t' : Table (Value × Value)}
    (ht : Table.Renamed ρ t t') :
    ∃ σ, ρ.Leads w w' σ (w.newHash t).2 (w'.newHash t').2 ∧
      (w.newHash t).1.Renamed σ (w'.newHash t').1 := by
  have hleads := h.takeIdentity
  exact ⟨_, hleads, .hash (.inr ⟨rfl, rfl⟩) (ht.imp fun _ _ hed => hed.mono hleads.grown.le)⟩

/-- A new function corresponds to another one if the scopes do in which they are made. -/
theorem Renaming.Relates.newFunction (h : ρ.Relates w w') {a b : ScopeId} (hab : ρ.scopes a b)
    (parameters : List String) (body : Program) (site : Site) :
    ∃ σ, ρ.Leads w w' σ (w.newFunction ⟨parameters, body, site, a⟩).2
        (w'.newFunction ⟨parameters, body, site, b⟩).2 ∧
      (w.newFunction ⟨parameters, body, site, a⟩).1.Renamed σ
        (w'.newFunction ⟨parameters, body, site, b⟩).1 := by
  have hleads := h.takeIdentity
  exact ⟨_, hleads, .function (.inr ⟨rfl, rfl⟩) (hleads.grown.le.1 a b hab)⟩

/-- A builtin function does the same in both worlds. -/
theorem Builtin.leads_call (b : Builtin) {vs us : List Value}
    (hvs : List.Forall₂ (Value.Renamed ρ) vs us) (h : ρ.Relates w w') :
    ∃ σ, ρ.Leads w w' σ (b.call vs w).2 (b.call us w').2 ∧
      Agree (Value.Renamed σ) (b.call vs w).1 (b.call us w').1 := by
  cases b with
  | len => exact ⟨ρ, .refl h, (renamed_only hvs).bind fun _ _ => renamed_length⟩
  | first =>
    refine ⟨ρ, .refl h, (renamed_only hvs).bind fun v u hvu => ?_⟩
    refine (renamed_elements .first hvu).bind fun xs ys hxs => .ok ?_
    rw [List.head?_eq_getElem?, List.head?_eq_getElem?]
    exact rel_getD (rel_getElem? hxs 0) .null
  | last =>
    refine ⟨ρ, .refl h, (renamed_only hvs).bind fun v u hvu => ?_⟩
    refine (renamed_elements .last hvu).bind fun xs ys hxs => .ok ?_
    rw [List.getLast?_eq_getElem?, List.getLast?_eq_getElem?, hxs.length_eq]
    exact rel_getD (rel_getElem? hxs _) .null
  | rest =>
    have helements := (renamed_only hvs).bind fun v u hvu => renamed_elements .rest hvu
    simp only [call]
    generalize only vs >>= elements .rest = r at helements ⊢
    generalize only us >>= elements .rest = r' at helements ⊢
    cases helements with
    | error fault => exact ⟨ρ, .refl h, .error fault⟩
    | ok hxs =>
      cases hxs with
      | nil => exact ⟨ρ, .refl h, .ok .null⟩
      | cons _ hothers =>
        obtain ⟨σ, hleads, hnew⟩ := h.newArray hothers
        exact ⟨σ, hleads, .ok hnew⟩
  | push =>
    have hpushed := renamed_pushed hvs
    simp only [call]
    generalize pushed vs = r at hpushed ⊢
    generalize pushed us = r' at hpushed ⊢
    cases hpushed with
    | error fault => exact ⟨ρ, .refl h, .error fault⟩
    | ok hxs =>
      obtain ⟨σ, hleads, hnew⟩ := h.newArray hxs
      exact ⟨σ, hleads, .ok hnew⟩
  | puts =>
    obtain ⟨hresult, hleads⟩ := leads_writeLines hvs h
    exact ⟨ρ, hleads, hresult⟩

end Monkey
