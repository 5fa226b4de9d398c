import Mathlib.Logic.Equiv.Basic
import SimplexScript.Proofs.Language.Renaming
import SimplexScript.Proofs.Language.StoreSafety

/-!
# Exchanging declarations

Two declarations that do not mention each other may change places. Each of
them evaluates its expression over bindings and complexes that the other
leaves alone, so both find the same complexes in either order. What differs
are the two addresses and the order of vertices, and from there on the rest of
the program runs up to exchanging the addresses.
-/

set_option autoImplicit false

namespace SimplexScript

theorem execAll_append (o : Options) (env : Environment) (s : State) (cs ds : List Command) :
    execAll o env s (cs ++ ds) = execAll o env s cs >>= fun k => execAll o k.env k.state ds := by
  induction cs generalizing env s with
  | nil => simp [execAll]
  | cons c cs ih => simp only [List.cons_append, execAll, bind_assoc, ih]

theorem Command.mem_operatorsOfAll {cs : List Command} {op : String} :
    op ∈ operatorsOfAll cs ↔ ∃ c ∈ cs, op ∈ c.operators := by
  induction cs with
  | nil => simp [operatorsOfAll]
  | cons c cs ih => simp [operatorsOfAll, ih]

section Counting

theorem exec_nextLoc (o : Options) (env : Environment) (s : State) (c : Command) :
    Meets (exec o env s c) (fun k => k.state.nextLoc = s.nextLoc ∨
      k.state.nextLoc = s.nextLoc.add (.ofInt 1)) (fun _ => True) := by
  cases c with
  | complexDecl name e =>
    rw [exec]
    apply (Meets.any _).bind
    intro _ _
    apply Meets.silent
    exact (Meets.any _).bind fun c _ => .pure (.inr rfl)
  | vertexDecl name =>
    rw [exec]
    apply (Meets.any _).bind
    intro _ _
    apply Meets.lift
    apply declareVertex_yields _ trivial
    intro v t ht
    obtain ⟨id, -, -, rfl⟩ := State.exists_of_fresh ht
    exact .inl rfl
  | assign name e =>
    rw [exec]
    apply (Meets.any _).bind
    intro _ _
    apply Meets.silent
    apply (Meets.any _).bind
    intro v _
    cases v with
    | loc a =>
      apply (Meets.any _).bind
      intro c _
      apply (Meets.lift (s.update_yields a c trivial)).bind
      rintro t rfl
      exact .pure (.inl rfl)
    | _ => exact .throw trivial
  | branch cond yes no =>
    exact (exec_block_meets o env s (by simp [Command.blocks])).mono fun _ h => .inl h.2
  | loop cond body =>
    exact (exec_block_meets o env s (by simp [Command.blocks])).mono fun _ h => .inl h.2
  | functionDecl fn =>
    rw [exec]
    exact (Meets.any _).bind fun _ _ => .pure (.inl rfl)
  | unknown =>
    rw [exec]
    exact (Meets.any _).bind fun _ _ => .throw trivial

theorem execAll_nextLoc (o : Options) (cs : List Command) {n : Nat} {env : Environment} {s : State}
    (hs : s.nextLoc = .ofInt n) (hn : n + cs.length ≤ addressLimit) :
    Meets (execAll o env s cs) (fun k => ∃ m : Nat, m ≤ n + cs.length ∧
      k.state.nextLoc = .ofInt m) (fun _ => True) := by
  induction cs generalizing n env s with
  | nil => exact .pure ⟨n, Nat.le_refl _, hs⟩
  | cons c cs ih =>
    rw [List.length_cons] at hn ⊢
    apply (exec_nextLoc o env s c).bind
    rintro k (hk | hk)
    · apply (ih (hk.trans hs) (by omega)).mono
      rintro l ⟨m, hm, hl⟩
      exact ⟨m, by omega, hl⟩
    · have hlt : n < 2 ^ 53 := by
        rw [addressLimit] at hn
        omega
      have hnext : k.state.nextLoc = .ofInt (n + 1 : Nat) := by rw [hk, hs, Number.add_one hlt]
      apply (ih hnext (by omega)).mono
      rintro l ⟨m, hm, hl⟩
      exact ⟨m, by omega, hl⟩

end Counting

theorem swap_ofInt {i j : Nat} (hi : j ≠ i) (hi' : j ≠ i + 1) :
    Equiv.swap (Number.ofInt i) (.ofInt (i + 1 : Nat)) (.ofInt j) = .ofInt j := by
  apply Equiv.swap_apply_of_ne_of_ne
  · rw [Ne, Number.ofInt_inj]
    omega
  · rw [Ne, Number.ofInt_inj]
    omega

def Renaming.exchange (i : Nat) : Renaming where
  map := Equiv.swap (.ofInt i) (.ofInt (i + 1 : Nat))
  free m := ∃ j : Nat, i + 2 ≤ j ∧ j ≤ addressLimit ∧ m = .ofInt j
  fixed := by
    rintro _ ⟨j, hij, -, rfl⟩
    exact swap_ofInt (by omega) (by omega)
  below := by
    rintro _ a ⟨j, hij, -, rfl⟩
    have hi : (Number.ofInt (i : Nat)).lt (.ofInt j) = true := Number.lt_ofInt.2 (by omega)
    have hi' : (Number.ofInt (i + 1 : Nat)).lt (.ofInt j) = true := Number.lt_ofInt.2 (by omega)
    rw [Equiv.swap_apply_def]
    split
    next h => rw [h, hi, hi']
    next =>
      split
      next h => rw [h, hi, hi']
      next => rfl
  next := by
    rintro _ ⟨j, hij, hj, rfl⟩
    rcases Nat.lt_or_eq_of_le hj with hlt | rfl
    · exact ⟨j + 1, by omega, hlt, Number.add_one hlt⟩
    · exact ⟨addressLimit, hij, hj, Number.add_one_rest⟩

theorem Renaming.exchange_of_mem {i : Nat} {a : Number} (ha : a ∈ addresses i) :
    (exchange i).map a = a := by
  obtain ⟨m, hm, rfl⟩ := mem_addresses.1 ha
  exact swap_ofInt (by omega) (by omega)

namespace Config

def declared (k : Config) (name : String) (c : Complex) : Config :=
  ⟨Table.set k.env name (.loc k.state.nextLoc), ((k.state.declare c.vertices).allocate c).2⟩

section Declared

variable (k : Config) (name : String) (c : Complex)

theorem get?_env_declared (x : String) : Table.get? (k.declared name c).env x =
    if name = x then some (.loc k.state.nextLoc) else Table.get? k.env x :=
  Table.get?_set _ _ _ _

theorem get?_store_declared (a : Number) : Table.get? (k.declared name c).state.store a =
    if k.state.nextLoc = a then some c else Table.get? k.state.store a :=
  Table.get?_set _ _ _ _

theorem nextLoc_declared :
    (k.declared name c).state.nextLoc = k.state.nextLoc.add (.ofInt 1) := rfl

theorem mem_keys_declared {v : String} : v ∈ Table.keys (k.declared name c).state.vertexOrder ↔
    v ∈ Table.keys k.state.vertexOrder ∨ v ∈ c.vertices :=
  State.mem_keys_declare

end Declared

end Config

theorem State.Numbered.declared {k : Config} (h : k.state.Numbered) (name : String) (c : Complex) :
    (k.declared name c).state.Numbered :=
  h.grow rfl fun _ hv => (k.mem_keys_declared name c).2 (.inl hv)

theorem exec_complexDecl_eq_ok {o : Options} {k l : Config} {name : String} {e : Expr}
    {σ : Session} {m : Notes} :
    (∃ τ, τ.notes = m ∧ exec o k.env k.state (.complexDecl name e) σ = .ok l τ) ↔
    ∃ c, evalComplex o k.env k.state e ("declaration of " ++ name) σ.notes = .ok c m ∧
      l = k.declared name c := by
  have hannounce : ∃ log, announce o (.complexDecl name e) σ = .ok () ⟨σ.notes, log⟩ := by
    unfold announce
    dsimp only
    split
    · exact ⟨_, rfl⟩
    · exact ⟨_, rfl⟩
  obtain ⟨log, hlog⟩ := hannounce
  rw [exec]
  simp only [bind, EStateM.bind, hlog, Traced.silent, declareComplex]
  cases evalComplex o k.env k.state e ("declaration of " ++ name) σ.notes with
  | ok c m' =>
    constructor
    · rintro ⟨τ, rfl, h⟩
      cases h
      exact ⟨c, rfl, rfl⟩
    · rintro ⟨_, h, rfl⟩
      cases h
      exact ⟨⟨m, log⟩, rfl, rfl⟩
  | error f m' =>
    constructor
    · rintro ⟨τ, rfl, h⟩
      cases h
    · rintro ⟨_, h, rfl⟩
      cases h

/-- Configurations that bind the names of an expression alike and hold the same complexes at the
first addresses. -/
structure Frame (n : Nat) (e : Expr) (k l : Config) : Prop where
  env : ∀ x ∈ e.names, Table.get? l.env x = Table.get? k.env x
  store : ∀ a ∈ addresses n, Table.get? l.state.store a = Table.get? k.state.store a

theorem Frame.refl (n : Nat) (e : Expr) (k : Config) : Frame n e k k where
  env _ _ := rfl
  store _ _ := rfl

/-- A declaration under another name leaves an expression all that it can read. -/
theorem frame_declared {n : Nat} {e : Expr} {k : Config} (hk : k.state.nextLoc = .ofInt n)
    {name : String} (hname : name ∉ e.names) (c : Complex) :
    Frame n e k (k.declared name c) where
  env x hx := by
    have hne : name ≠ x := fun h => hname (h ▸ hx)
    rw [k.get?_env_declared, if_neg hne]
  store a ha := by
    obtain ⟨i, hi, rfl⟩ := mem_addresses.1 ha
    have hne : ¬ Number.ofInt n = Number.ofInt i := by
      rw [Number.ofInt_inj]
      omega
    rw [k.get?_store_declared, hk, if_neg hne]

/-- What the commands before two declarations leave: the first addresses are taken with room for
two more, and nothing in reach can pick. -/
structure Config.Settled (notes : Notes) (n : Nat) (k : Config) : Prop where
  layout : k.Layout n
  room : n + 2 ≤ addressLimit
  self : Renaming.refl.RelatesAll notes k k

section Pair

variable {o : Options} {notes : Notes} {n : Nat} {k : Config}

theorem Config.Settled.nextLoc (hk : k.Settled notes n) : k.state.nextLoc = .ofInt n :=
  hk.layout.nextLoc (by have := hk.room; omega)

theorem Config.Settled.nextLoc_declared (hk : k.Settled notes n) (x : String) (c : Complex) :
    (k.declared x c).state.nextLoc = .ofInt (n + 1 : Nat) := by
  have hlt : n + 1 < 2 ^ 53 := hk.room
  rw [k.nextLoc_declared, hk.nextLoc, Number.add_one (by omega)]

theorem Frame.evalComplex {l l' : Config} {e : Expr} (hk : k.Settled notes n)
    (he : ∀ op ∈ e.operators, op ≠ pickName) (hl : Frame n e k l) (hl' : Frame n e k l')
    {context : String} {c : Complex} {m : Notes}
    (h : evalComplex o l.env l.state e context notes = .ok c m) :
    evalComplex o l'.env l'.state e context notes = .ok c notes ∧ m = notes := by
  let tie := fun a a' : Number => a' = a ∧ a ∈ addresses n
  have hC : (matching tie notes).Lawful l.state l'.state := by
    apply matching_lawful
    rintro _ a ⟨rfl, ha⟩ d hd
    rw [hl'.store a ha, ← hl.store a ha, hd]
  have hsees : ∀ x ∈ e.names, (matching tie notes).Sees l.env l'.env x := by
    intro x hx
    have hx' : (matching tie notes).Sees k.env k.env x :=
      sees_mono (fun a a' ha h => ⟨h, ha⟩) hk.layout.env (hk.self.env x)
    unfold Coupling.Sees
    rw [hl.env x hx, hl'.env x hx]
    exact hx'
  have hfollows := Coupling.evalComplex_follows hC (.refl _ o) hsees he context
  obtain ⟨_, _, hok, rfl, rfl, hm⟩ := hfollows.of_ok ⟨rfl, rfl⟩ h
  cases (hm : m = notes)
  exact ⟨hok, rfl⟩

theorem relates_declared (hk : k.Settled notes n) (x y : String) (c d : Complex) :
    (Renaming.exchange n).Relates ((k.declared x c).declared y d).state
      ((k.declared y d).declared x c).state where
  store a := by
    have hmap : (Renaming.exchange n).map = Equiv.swap (.ofInt n) (.ofInt (n + 1 : Nat)) := rfl
    have hij : Number.ofInt n ≠ Number.ofInt (n + 1 : Nat) := by
      rw [Ne, Number.ofInt_inj]
      omega
    simp only [Config.get?_store_declared, hk.nextLoc, hk.nextLoc_declared, hmap]
    generalize Number.ofInt n = i, Number.ofInt (n + 1 : Nat) = j at hij
    by_cases hai : a = i
    · simp [hai, hij.symm]
    · by_cases haj : a = j
      · simp [haj, hij.symm]
      · rw [Equiv.swap_apply_of_ne_of_ne hai haj]
        simp [Ne.symm hai, Ne.symm haj]
  nextLoc := rfl
  free := by
    have hlt : n + 1 < 2 ^ 53 := hk.room
    rw [Config.nextLoc_declared, hk.nextLoc_declared, Number.add_one hlt]
    exact ⟨n + 2, Nat.le_refl _, hk.room, rfl⟩
  vertices v := by
    simp only [Config.mem_keys_declared]
    exact or_right_comm
  numbered := (hk.self.state.numbered.declared x c).declared y d
  numbered' := (hk.self.state.numbered.declared y d).declared x c

theorem relatesAll_declared (hk : k.Settled notes n) {x y : String} (hxy : x ≠ y)
    (c d : Complex) :
    (Renaming.exchange n).RelatesAll notes ((k.declared x c).declared y d)
      ((k.declared y d).declared x c) where
  state := relates_declared hk x y c d
  env z := by
    have hz : (matching (Renaming.exchange n).tie notes).Sees k.env k.env z := by
      apply sees_mono _ hk.layout.env (hk.self.env z)
      rintro _ a ha rfl
      exact (Renaming.exchange_of_mem ha).symm
    unfold Coupling.Sees at hz ⊢
    simp only [Config.get?_env_declared, hk.nextLoc, hk.nextLoc_declared]
    by_cases hzy : y = z
    · have hzx : x ≠ z := hzy ▸ hxy
      simp only [hzy, hzx, if_true, if_false]
      exact .some (.loc z (Equiv.swap_apply_right _ _).symm)
    · by_cases hzx : x = z
      · simp only [hzy, hzx, if_true, if_false]
        exact .some (.loc z (Equiv.swap_apply_left _ _).symm)
      · simp only [hzy, hzx, if_false]
        exact hz

/-- Whatever one order of the declarations succeeds in, so does the other. -/
theorem execAll_declarations (hk : k.Settled notes n) {x y : String} {e f : Expr} (hxy : x ≠ y)
    (hx : x ∉ f.names) (hy : y ∉ e.names) (he : ∀ op ∈ e.operators, op ≠ pickName)
    (hf : ∀ op ∈ f.operators, op ≠ pickName) {σ τ : Session} (hσ : σ.notes = notes) {l : Config}
    (h : execAll o k.env k.state [.complexDecl x e, .complexDecl y f] σ = .ok l τ) :
    τ.notes = notes ∧
    ∃ l' τ', execAll o k.env k.state [.complexDecl y f, .complexDecl x e] σ = .ok l' τ' ∧
      τ'.notes = notes ∧ (Renaming.exchange n).RelatesAll notes l l' := by
  subst hσ
  simp only [execAll, bind_eq_ok] at h
  obtain ⟨k₁, σ₁, h₁, k₂, σ₂, h₂, hl⟩ := h
  cases hl
  obtain ⟨c, hc, rfl⟩ := exec_complexDecl_eq_ok.1 ⟨σ₁, rfl, h₁⟩
  obtain ⟨d, hd, rfl⟩ := exec_complexDecl_eq_ok.1 ⟨τ, rfl, h₂⟩
  -- both expressions are moved to the places that they have in the other order
  have hyd : Frame n e k (k.declared y d) := frame_declared hk.nextLoc hy d
  have hxc : Frame n f k (k.declared x c) := frame_declared hk.nextLoc hx c
  obtain ⟨hc', hσ₁⟩ := (Frame.refl n e k).evalComplex hk he hyd hc
  rw [hσ₁] at hd
  obtain ⟨hd', hτ⟩ := hxc.evalComplex hk hf (Frame.refl n f k) hd
  obtain ⟨τ₁, hτ₁, h₁'⟩ := exec_complexDecl_eq_ok.2 ⟨d, hd', rfl⟩
  rw [← hτ₁] at hc'
  obtain ⟨τ₂, hτ₂, h₂'⟩ := exec_complexDecl_eq_ok.2 ⟨c, hc', rfl⟩
  refine ⟨hτ, _, τ₂, ?_, hτ₂.trans hτ₁, relatesAll_declared hk hxy c d⟩
  simp only [execAll, bind_eq_ok]
  exact ⟨_, τ₁, h₁', _, τ₂, h₂', rfl⟩

end Pair

theorem relatesAll_initial (notes : Notes) :
    Renaming.refl.RelatesAll notes Config.initial Config.initial where
  state :=
    { store := fun _ => rfl
      nextLoc := rfl
      free := trivial
      vertices := fun _ => Iff.rfl
      numbered := State.numbered_empty
      numbered' := State.numbered_empty }
  env x := by
    have hnames : ∀ e ∈ Registry.standard, e.2.rule = .pick → e.1 = pickName := by decide
    refine Coupling.sees_iff.2 ⟨rfl, ?_⟩
    intro v v' hv hv'
    cases hv.symm.trans hv'
    rcases Table.mem_setAll (Table.mem_of_get? hv) with h | h
    · cases h
    · obtain ⟨d, hd, he⟩ := List.mem_map.1 h
      cases he
      exact .operator (hnames d hd)

theorem execAll_initial {o : Options} {before : List Command} {σ τ : Session} {k : Config}
    (hbefore : ∀ op ∈ Command.operatorsOfAll before, op ≠ pickName)
    (hcount : before.length + 2 ≤ addressLimit)
    (h : execAll o Config.initial.env Config.initial.state before σ = .ok k τ) :
    τ.notes = σ.notes ∧ ∃ n, k.Settled σ.notes n := by
  have hrun := (Renaming.refl.tandem o σ.notes).execAll_follows (relatesAll_initial σ.notes) before
    hbefore
  obtain ⟨k', τ', h', hk, ⟨-, hτ⟩, -⟩ := hrun.of_ok ⟨⟨rfl, rfl⟩, trivial⟩ h
  cases h.symm.trans h'
  obtain ⟨⟨n, hn⟩, -⟩ := (layout_stepwise.execAll_meets o _ _ ⟨0, layout_initial⟩ before
    fun _ _ => trivial).of_ok h
  obtain ⟨m, hm, hnext⟩ := (execAll_nextLoc o before (n := 0) rfl (by omega)).of_ok h
  refine ⟨hτ, n, hn, ?_, hk⟩
  rw [hn.next, Number.ofInt_inj] at hnext
  omega

def Config.SameComplexes (k l : Config) : Prop :=
  ∀ x, ((∃ a, Table.get? k.env x = some (.loc a)) ↔ ∃ b, Table.get? l.env x = some (.loc b)) ∧
    ∀ a b, Table.get? k.env x = some (.loc a) → Table.get? l.env x = some (.loc b) →
      ∃ c, k.state.access a = .ok c ∧ l.state.access b = .ok c

theorem Renaming.RelatesAll.sameComplexes {ρ : Renaming} {notes : Notes} {k l : Config}
    (h : ρ.RelatesAll notes k l) {n : Nat} (hk : k.Layout n) : k.SameComplexes l := by
  intro x
  obtain ⟨hsame, hbound⟩ := Coupling.sees_iff.1 (h.env x)
  refine ⟨⟨?_, ?_⟩, ?_⟩
  · rintro ⟨a, ha⟩
    rw [ha] at hsame
    obtain ⟨v, hv⟩ := Option.isSome_iff_exists.1 hsame.symm
    cases hbound _ _ ha hv with
    | loc _ _ => exact ⟨_, hv⟩
  · rintro ⟨b, hb⟩
    rw [hb] at hsame
    obtain ⟨v, hv⟩ := Option.isSome_iff_exists.1 hsame
    cases hbound _ _ hv hb with
    | loc _ _ => exact ⟨_, hv⟩
  · intro a b ha hb
    cases hbound _ _ ha hb with
    | loc _ htie =>
      rw [Renaming.tie] at htie
      subst htie
      have hmem : a ∈ Table.keys k.state.store := by
        rw [hk.keys]
        exact Discipline.Accepts.address_of_holds (.loc a) (hk.env _ (Table.mem_of_get? ha))
      obtain ⟨c, hc⟩ := Table.exists_get?_of_mem_keys hmem
      have hc' := h.state.store a
      rw [hc] at hc'
      exact ⟨c, by rw [State.access, hc], by rw [State.access, ← hc']⟩

section Commute

variable {o : Options} {before after : List Command} {x y : String} {e f : Expr}

theorem evaluate_exchanged (hxy : x ≠ y) (hx : x ∉ f.names) (hy : y ∉ e.names)
    (hpick : pickName ∉ Command.operatorsOfAll
      (before ++ .complexDecl x e :: .complexDecl y f :: after))
    (hcount : before.length + 2 ≤ addressLimit) {σ τ : Session} {k : Config}
    (h : evaluate o (before ++ .complexDecl x e :: .complexDecl y f :: after) σ = .ok k τ) :
    ∃ k' τ', evaluate o (before ++ .complexDecl y f :: .complexDecl x e :: after) σ = .ok k' τ' ∧
      k.SameComplexes k' := by
  obtain ⟨⟨n, hlayout⟩, -⟩ := (layout_stepwise.execAll_meets o _ _ ⟨0, layout_initial⟩ _
    fun _ _ => trivial).of_ok h
  have hquiet : ∀ c ∈ before ++ .complexDecl x e :: .complexDecl y f :: after,
      ∀ op ∈ c.operators, op ≠ pickName := by
    rintro c hc op hop rfl
    exact hpick (Command.mem_operatorsOfAll.2 ⟨c, hc, hop⟩)
  have hall (cs : List Command)
      (hcs : ∀ c ∈ cs, c ∈ before ++ .complexDecl x e :: .complexDecl y f :: after) :
      ∀ op ∈ Command.operatorsOfAll cs, op ≠ pickName := by
    intro op hop
    obtain ⟨c, hc, hop⟩ := Command.mem_operatorsOfAll.1 hop
    exact hquiet c (hcs c hc) op hop
  have he : ∀ op ∈ e.operators, op ≠ pickName := hquiet (.complexDecl x e) (by simp)
  have hf : ∀ op ∈ f.operators, op ≠ pickName := hquiet (.complexDecl y f) (by simp)
  have hsplit (c d : Command) : before ++ c :: d :: after = before ++ ([c, d] ++ after) := rfl
  unfold evaluate at h ⊢
  rw [hsplit, execAll_append] at h ⊢
  simp only [execAll_append o _ _ [_, _] after, bind_eq_ok] at h ⊢
  obtain ⟨k₀, σ₀, h₀, l, σ₁, h₁, h₂⟩ := h
  obtain ⟨hσ₀, m, hk₀⟩ := execAll_initial (hall before fun c hc => by simp [hc]) hcount h₀
  obtain ⟨hσ₁, l', σ₁', h₁', hσ₁', hl⟩ := execAll_declarations hk₀ hxy hx hy he hf hσ₀ h₁
  have hrest := ((Renaming.exchange m).tandem o σ.notes).execAll_follows hl after
    (hall after fun c hc => by simp [hc])
  obtain ⟨k', τ', h₂', hk, -⟩ := hrest.of_ok ⟨⟨hσ₁.trans hσ₁'.symm, hσ₁⟩, trivial⟩ h₂
  exact ⟨k', τ', ⟨k₀, σ₀, h₀, l', σ₁', h₁', h₂'⟩, hk.sameComplexes hlayout⟩

end Commute

/-- Two declarations next to each other, neither of which mentions the name of the other, may be
exchanged in a program that picks no vertex and whose commands up to them can be counted: it
succeeds in both orders or in neither, and ends with the same complexes. -/
theorem independent_declarations_commute (o : Options) (σ : Session) (before after : List Command)
    (x y : String) (e f : Expr) (hxy : x ≠ y) (hx : x ∉ f.names) (hy : y ∉ e.names)
    (hpick : pickName ∉ Command.operatorsOfAll
      (before ++ .complexDecl x e :: .complexDecl y f :: after))
    (hcount : before.length + 2 ≤ addressLimit) :
    ((∃ k τ, evaluate o (before ++ .complexDecl x e :: .complexDecl y f :: after) σ = .ok k τ) ↔
      ∃ k τ, evaluate o (before ++ .complexDecl y f :: .complexDecl x e :: after) σ = .ok k τ) ∧
    ∀ k τ l υ, evaluate o (before ++ .complexDecl x e :: .complexDecl y f :: after) σ = .ok k τ →
      evaluate o (before ++ .complexDecl y f :: .complexDecl x e :: after) σ = .ok l υ →
      k.SameComplexes l := by
  have hpick' : pickName ∉ Command.operatorsOfAll
      (before ++ .complexDecl y f :: .complexDecl x e :: after) := by
    intro h
    apply hpick
    rw [Command.mem_operatorsOfAll] at h ⊢
    obtain ⟨c, hc, hop⟩ := h
    exact ⟨c, by simp at hc ⊢; tauto, hop⟩
  refine ⟨⟨?_, ?_⟩, ?_⟩
  · rintro ⟨k, τ, h⟩
    obtain ⟨l, υ, hl, -⟩ := evaluate_exchanged hxy hx hy hpick hcount h
    exact ⟨l, υ, hl⟩
  · rintro ⟨l, υ, h⟩
    obtain ⟨k, τ, hk, -⟩ := evaluate_exchanged hxy.symm hy hx hpick' hcount h
    exact ⟨k, τ, hk⟩
  · intro k τ l υ h hl
    obtain ⟨l', υ', hl', hsame⟩ := evaluate_exchanged hxy hx hy hpick hcount h
    cases hl.symm.trans hl'
    exact hsame

/-- A literal and a call, with a fresh vertex and an assignment behind them. -/
theorem independent_declarations_commute_call :
    let before := [Command.functionDecl
      ⟨"f", ["z"], .opCall "union" [.ident "z", .complexLit ["a"]] none⟩]
    let e := Expr.complexLit ["a", "b"]
    let f := Expr.funCall "f" [.complexLit ["c"]]
    let after := [Command.vertexDecl "v",
      .assign "B" (.opCall "join" [.ident "B", .ident "v"] none)]
    ∃ k τ l υ,
      evaluate .default (before ++ .complexDecl "A" e :: .complexDecl "B" f :: after) .empty =
        .ok k τ ∧
      evaluate .default (before ++ .complexDecl "B" f :: .complexDecl "A" e :: after) .empty =
        .ok l υ ∧
      k.SameComplexes l := by
  intro before e f after
  have hx : "A" ∉ f.names := by decide
  have hy : "B" ∉ e.names := by decide
  have hpick : pickName ∉ Command.operatorsOfAll
      (before ++ .complexDecl "A" e :: .complexDecl "B" f :: after) := by decide
  have hcount : before.length + 2 ≤ addressLimit := by decide
  have hrun : ∃ k τ, evaluate .default
      (before ++ .complexDecl "A" e :: .complexDecl "B" f :: after) .empty = .ok k τ := by
    have hok : (match evaluate .default
        (before ++ .complexDecl "A" e :: .complexDecl "B" f :: after) .empty with
      | .ok _ _ => true
      | .error _ _ => false) = true := by decide +kernel
    split at hok
    next k τ h => exact ⟨k, τ, h⟩
    next => cases hok
  clear_value before e f after
  have hcommute := independent_declarations_commute .default .empty before after "A" "B" e f
    (by decide) hx hy hpick hcount
  obtain ⟨k, τ, hk⟩ := hrun
  obtain ⟨l, υ, hl⟩ := hcommute.1.1 ⟨k, τ, hk⟩
  exact ⟨k, τ, l, υ, hk, hl, hcommute.2 k τ l υ hk hl⟩

end SimplexScript
