import MiniJava.Proofs.Semantics.Behaviour

/-!
# Rows of instructions

Three-address code and the instructions of the virtual machine are rows of instructions with labels
to jump to. A `Language` says which instructions are labels, and what an instruction does to the
local state of a method; `Language.machine` runs a row of them.

A part of the code `Computes` an act if, wherever the part stands, it runs as the act does. The
rules follow the act: nothing, one instruction, one act and then the next. What remains of the code
is always a suffix of it, and where all labels differ a jump finds the only place that it can mean
(`behind?_of_suffix`).
-/

namespace MiniJava

variable {ι σ ε α β γ : Type}

/-! ## Effects are only added -/

/-- The effects so far stay. -/
def Act.Grows (x : Act ε α β) : Prop := ∀ h, h <:+ (x.run h).2

namespace Act.Grows

protected theorem pure (b : β) : Grows (pure b : Act ε α β) := fun h => h.suffix_refl

protected theorem stop (o : Ending α) : Grows (Act.stop o : Act ε α β) := fun h => h.suffix_refl

protected theorem bind {x : Act ε α β} {f : β → Act ε α γ} (hx : x.Grows) (hf : ∀ b, (f b).Grows) :
    (x >>= f).Grows := by
  intro h
  have hh := hx h
  rw [Act.run_bind]
  split <;> rename_i hrun <;> rw [hrun] at hh
  · exact hh.trans (hf _ _)
  · exact hh

protected theorem ofExcept (x : Except (Ending α) β) : Grows (Act.ofExcept x : Act ε α β) := by
  cases x with
  | ok b => exact .pure b
  | error o => exact .stop o

theorem need {x : Act ε α (Option β)} (hx : x.Grows) : x.need.Grows :=
  hx.bind fun b => by
    cases b with
    | none => exact .stop _
    | some b => exact .pure b

theorem perform (w : World ε α) (e : ε) : (w.perform e).Grows := by
  intro h
  unfold World.perform
  dsimp only
  split <;> exact h.suffix_cons e

theorem ask (w : World ε α) (e : ε) : (w.ask e).Grows := (perform w e).need

end Act.Grows

/-! ## Languages -/

/-- Where an instruction leads. -/
inductive Next (σ : Type) where
  /-- To the instruction behind it. -/
  | fall (locals : σ)
  | jump (target : String) (locals : σ)

/-- The meaning of instructions. -/
structure Language (ι σ ε α : Type) where
  /-- The name of a label. -/
  label? : ι → Option String
  act : ι → σ → Act ε α (Next σ)

/-- Code that is running: the instructions from the next one on, the local state of the method, and
the effects so far. -/
structure Running (ι σ ε : Type) where
  rest : List ι
  locals : σ
  trace : List ε

namespace Language

variable (L : Language ι σ ε α)

/-- The labels in code. -/
def labels (code : List ι) : List String := code.filterMap L.label?

/-- The code behind the first label of this name. -/
def behind? (target : String) : List ι → Option (List ι)
  | [] => none
  | i :: is => if L.label? i = some target then some is else behind? target is

/-- Go on behind an instruction or at a label. -/
def resume (code rest : List ι) (h : List ε) : Next σ → Progress (Running ι σ ε) ε α
  | .fall l => .running ⟨rest, l, h⟩
  | .jump target l =>
    match L.behind? target code with
    | some rest => .running ⟨rest, l, h⟩
    | none => .finished .stuck h

/-- Execute one instruction. At the end of the code there is none. -/
def step (code : List ι) : Running ι σ ε → Progress (Running ι σ ε) ε α
  | ⟨[], _, h⟩ => .finished .stuck h
  | ⟨i :: is, l, h⟩ =>
    match (L.act i l).run h with
    | (.ok next, h') => L.resume code is h' next
    | (.error o, h') => .finished o h'

/-- The machine that runs some code. -/
def machine (code : List ι) : Machine (Running ι σ ε) ε α := ⟨L.step code, Running.trace⟩

/-- What the run of some code shows. -/
def observe (code : List ι) (l : σ) : Nat → Observation ε α := (L.machine code).observe ⟨code, l, []⟩

variable {L} {code p q rest : List ι} {i : ι} {l l' : σ} {h h' : List ε}

/-! ## Steps -/

theorem machine_grows (hact : ∀ i l, (L.act i l).Grows) (code : List ι) :
    (L.machine code).Grows := by
  rintro ⟨rest, l, h⟩
  cases rest with
  | nil => exact h.suffix_refl
  | cons i is =>
    have hh := hact i l h
    unfold machine Language.step
    dsimp only
    split <;> rename_i hrun <;> rw [hrun] at hh
    · rename_i next h'
      cases next with
      | fall l' => exact hh
      | jump target l' =>
        unfold resume
        dsimp only
        split <;> exact hh
    · exact hh

theorem step_of_error {o : Ending α} (hact : (L.act i l).run h = (.error o, h')) :
    (L.machine code).step ⟨i :: rest, l, h⟩ = .finished o h' := by
  simp only [machine, Language.step, hact]

theorem step_of_ok {next : Next σ} (hact : (L.act i l).run h = (.ok next, h')) :
    (L.machine code).step ⟨i :: rest, l, h⟩ = L.resume code rest h' next := by
  simp only [machine, Language.step, hact]

theorem step_of_fall (hact : (L.act i l).run h = (.ok (.fall l'), h')) :
    (L.machine code).step ⟨i :: rest, l, h⟩ = .running ⟨rest, l', h'⟩ :=
  step_of_ok hact

/-! ## Jumps -/

theorem labels_append (p q : List ι) : L.labels (p ++ q) = L.labels p ++ L.labels q :=
  List.filterMap_append

/-- A label does not stand where it is not among the labels. -/
theorem behind?_append_of_not_mem {target : String} (hp : target ∉ L.labels p) (rest : List ι) :
    L.behind? target (p ++ rest) = L.behind? target rest := by
  induction p with
  | nil => rfl
  | cons j p ih =>
    have hj : L.label? j ≠ some target := fun hj =>
      hp (List.mem_filterMap.mpr ⟨j, List.mem_cons_self, hj⟩)
    have hp' : target ∉ L.labels p := fun hmem => by
      obtain ⟨k, hk, hlabel⟩ := List.mem_filterMap.mp hmem
      exact hp (List.mem_filterMap.mpr ⟨k, List.mem_cons_of_mem j hk, hlabel⟩)
    rw [List.cons_append, behind?, if_neg hj]
    exact ih hp'

/-- A jump to a label that does not stand further in front. -/
theorem behind?_append {target : String} (hi : L.label? i = some target)
    (hp : target ∉ L.labels p) : L.behind? target (p ++ i :: rest) = some rest := by
  rw [behind?_append_of_not_mem hp]
  exact if_pos hi

/-- Where all labels differ, a jump leads behind the label that it names. -/
theorem behind?_of_suffix {target : String} (hnodup : (L.labels code).Nodup)
    (hi : L.label? i = some target) (hrest : i :: rest <:+ code) :
    L.behind? target code = some rest := by
  obtain ⟨front, rfl⟩ := hrest
  refine behind?_append hi fun hmem => ?_
  rw [labels_append, List.nodup_append] at hnodup
  exact hnodup.2.2 target hmem target (List.mem_filterMap.mpr ⟨i, List.mem_cons_self, hi⟩) rfl

theorem step_of_jump {target : String} (hnodup : (L.labels code).Nodup)
    (hact : (L.act i l).run h = (.ok (.jump target l'), h')) {j : ι}
    (hj : L.label? j = some target) (hrest : j :: rest <:+ code) :
    (L.machine code).step ⟨i :: q, l, h⟩ = .running ⟨rest, l', h'⟩ := by
  rw [step_of_ok hact, resume, behind?_of_suffix hnodup hj hrest]

/-- Wherever this part stands in the code, the machine comes from its front to `q`, and from behind
`q` to behind the part, without doing anything else. -/
def Wraps (L : Language ι σ ε α) (code part q : List ι) (l : σ) : Prop :=
  ∀ rest h, part ++ rest <:+ code → ∃ rest', q ++ rest' <:+ code ∧
    (L.machine code).Leads ⟨part ++ rest, l, h⟩ (.running ⟨q ++ rest', l, h⟩) ∧
    ∀ l' h', (L.machine code).Leads ⟨rest', l', h'⟩ (.running ⟨rest, l', h'⟩)

/-! ## What a part computes -/

/-- Wherever this part stands in the code, it runs as an act does; the value of the act and the
state behind the part fulfil a condition. -/
def Computes (L : Language ι σ ε α) (code part : List ι) (l : σ) (x : Act ε α β)
    (K : β → σ → Prop) : Prop :=
  ∀ rest, part ++ rest <:+ code → ∀ h,
    match x.run h with
    | (.ok b, h') =>
      ∃ l', K b l' ∧ (L.machine code).Leads ⟨part ++ rest, l, h⟩ (.running ⟨rest, l', h'⟩)
    | (.error o, h') => (L.machine code).Leads ⟨part ++ rest, l, h⟩ (.finished o h')

namespace Computes

variable {x : Act ε α β} {f : β → Act ε α γ} {K K' : β → σ → Prop} {K₂ : γ → σ → Prop}

theorem of_run_ok (hx : L.Computes code p l x K) (hrest : p ++ rest <:+ code) {b : β}
    (hrun : x.run h = (.ok b, h')) :
    ∃ l', K b l' ∧ (L.machine code).Leads ⟨p ++ rest, l, h⟩ (.running ⟨rest, l', h'⟩) := by
  have hx := hx rest hrest h
  rw [hrun] at hx
  exact hx

theorem of_run_error (hx : L.Computes code p l x K) (hrest : p ++ rest <:+ code) {o : Ending α}
    (hrun : x.run h = (.error o, h')) :
    (L.machine code).Leads ⟨p ++ rest, l, h⟩ (.finished o h') := by
  have hx := hx rest hrest h
  rw [hrun] at hx
  exact hx

theorem mono (hx : L.Computes code p l x K) (hK : ∀ b l', K b l' → K' b l') :
    L.Computes code p l x K' := by
  intro rest hrest h
  split <;> rename_i hrun
  · obtain ⟨l', hl', hleads⟩ := hx.of_run_ok hrest hrun
    exact ⟨l', hK _ l' hl', hleads⟩
  · exact hx.of_run_error hrest hrun

/-- Nothing is computed by nothing. -/
protected theorem pure {b : β} (hK : K b l) : L.Computes code [] l (pure b) K :=
  fun _ _ _ => ⟨l, hK, .refl _ _⟩

/-- One part and then the next. -/
protected theorem bind (hx : L.Computes code p l x K)
    (hf : ∀ b l', K b l' → L.Computes code q l' (f b) K₂) :
    L.Computes code (p ++ q) l (x >>= f) K₂ := by
  intro rest hrest h
  rw [List.append_assoc] at hrest ⊢
  have hrest' : q ++ rest <:+ code := (List.suffix_append p _).trans hrest
  cases hrun : x.run h with
  | mk r h' =>
    cases r with
    | error o =>
      rw [Act.run_bind_of_error hrun]
      exact hx.of_run_error hrest hrun
    | ok b =>
      rw [Act.run_bind_of_ok hrun]
      obtain ⟨l', hl', hleads⟩ := hx.of_run_ok hrest hrun
      split <;> rename_i hrun'
      · obtain ⟨l'', hl'', hleads'⟩ := (hf b l' hl').of_run_ok hrest' hrun'
        exact ⟨l'', hl'', hleads.trans hleads'⟩
      · exact hleads.trans ((hf b l' hl').of_run_error hrest' hrun')

/-- One part, and a change of the value. -/
theorem map {g : β → γ} (hx : L.Computes code p l x K) (hK : ∀ b l', K b l' → K₂ (g b) l') :
    L.Computes code p l (do return g (← x)) K₂ := by
  have hbind := hx.bind (q := []) fun b l' hl' => Computes.pure (b := g b) (hK b l' hl')
  rwa [List.append_nil] at hbind

/-- One instruction, behind which the next one follows; the condition need only hold of values
that the act has. -/
theorem single_of_run {g : β → σ} (hact : L.act i l = do return .fall (g (← x)))
    (hK : ∀ b h h', x.run h = (.ok b, h') → K b (g b)) : L.Computes code [i] l x K := by
  intro rest hrest h
  split <;> rename_i hrun
  · refine ⟨_, hK _ _ _ hrun, .single (step_of_fall ?_)⟩
    rw [hact, Act.run_bind_of_ok hrun]
    rfl
  · refine .single (step_of_error ?_)
    rw [hact, Act.run_bind_of_error hrun]

/-- One instruction, behind which the next one follows. -/
theorem single {g : β → σ} (hact : L.act i l = do return .fall (g (← x))) (hK : ∀ b, K b (g b)) :
    L.Computes code [i] l x K :=
  single_of_run hact fun b _ _ _ => hK b

/-- What wraps a part computes what the part computes. -/
theorem of_wraps {part : List ι} (hx : L.Computes code q l x K) (hq : L.Wraps code part q l) :
    L.Computes code part l x K := by
  intro rest hrest h
  obtain ⟨rest', hrest', hto, hfrom⟩ := hq rest h hrest
  split <;> rename_i hrun
  · obtain ⟨l', hl', hrun'⟩ := hx.of_run_ok hrest' hrun
    exact ⟨l', hl', (hto.trans hrun').trans (hfrom l' _)⟩
  · exact hto.trans (hx.of_run_error hrest' hrun)

end Computes

end Language

end MiniJava
