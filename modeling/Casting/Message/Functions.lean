import Casting.Message.Metatables
import Casting.Message.Shipping

/-!
# Functions in messages

`decode_value` makes a new function of every function it comes to and gives it its upvalues.  What
comes back from a message is a copy of what was sent: tables are to the old ones as a renaming
says, and every function has the code of the old one and copies of its upvalues.
-/

namespace Casting

/-! ## Copies -/

section Copies

variable (h : LuaHeap) (closures : Address → Option Closure) (R : Address → Address → Prop)

mutual

/-- Equal values without an identity, tables that `R` relates, or functions with the same code and
upvalues that are copies. -/
inductive Copied : LuaValue → LuaValue → Prop
  | scalar {v : LuaValue} {c : Content} : v.scalar = some c → Copied v v
  | table {a a' : Address} : R a a' → Copied (.table a) (.table a')
  | function {a a' : Address} {c c' : Closure} : h.closures a = some c → closures a' = some c' →
      c'.code = c.code → CopiedAll c.upvalues c'.upvalues → Copied (.function a) (.function a')

inductive CopiedAll : List LuaValue → List LuaValue → Prop
  | nil : CopiedAll [] []
  | cons {v v' : LuaValue} {vs vs' : List LuaValue} : Copied v v' → CopiedAll vs vs' →
      CopiedAll (v :: vs) (v' :: vs')

end

end Copies

section Copied

variable {h : LuaHeap} {closures closures' : Address → Option Closure}
  {R R' : Address → Address → Prop} {v v' : LuaValue} {vs vs' ws ws' : List LuaValue}

theorem copied_induction {P : LuaValue → LuaValue → Prop}
    {Q : List LuaValue → List LuaValue → Prop}
    (scalar : ∀ v c, v.scalar = some c → P v v)
    (table : ∀ a a', R a a' → P (.table a) (.table a'))
    (function : ∀ a a' c c', h.closures a = some c → closures a' = some c' → c'.code = c.code →
      Q c.upvalues c'.upvalues → P (.function a) (.function a'))
    (nil : Q [] []) (cons : ∀ v v' vs vs', P v v' → Q vs vs' → Q (v :: vs) (v' :: vs')) :
    (∀ v v', Copied h closures R v v' → P v v') ∧
      ∀ vs vs', CopiedAll h closures R vs vs' → Q vs vs' := by
  constructor
  · intro v v' hv
    exact @Copied.rec h closures R (fun v v' _ => P v v') (fun vs vs' _ => Q vs vs')
      (fun hc => scalar _ _ hc) (fun ha => table _ _ ha)
      (fun hc hc' hcode _ ih => function _ _ _ _ hc hc' hcode ih) nil
      (fun _ _ ih ih' => cons _ _ _ _ ih ih') v v' hv
  · intro vs vs' hvs
    exact @CopiedAll.rec h closures R (fun v v' _ => P v v') (fun vs vs' _ => Q vs vs')
      (fun hc => scalar _ _ hc) (fun ha => table _ _ ha)
      (fun hc hc' hcode _ ih => function _ _ _ _ hc hc' hcode ih) nil
      (fun _ _ ih ih' => cons _ _ _ _ ih ih') vs vs' hvs

private theorem copied_mono (hR : ∀ a a', R a a' → R' a a')
    (hclosures : ∀ a c, closures a = some c → closures' a = some c) :
    (∀ v v', Copied h closures R v v' → Copied h closures' R' v v') ∧
      ∀ vs vs', CopiedAll h closures R vs vs' → CopiedAll h closures' R' vs vs' := by
  apply copied_induction
  case scalar => exact fun _ _ hc => .scalar hc
  case table => exact fun _ _ ha => .table (hR _ _ ha)
  case function =>
    exact fun _ _ _ _ hc hc' hcode hall => .function hc (hclosures _ _ hc') hcode hall
  case nil => exact .nil
  case cons => exact fun _ _ _ _ hv hvs => .cons hv hvs

theorem Copied.mono (hv : Copied h closures R v v') (hR : ∀ a a', R a a' → R' a a')
    (hclosures : ∀ a c, closures a = some c → closures' a = some c) :
    Copied h closures' R' v v' := (copied_mono hR hclosures).1 v v' hv

theorem CopiedAll.mono (hvs : CopiedAll h closures R vs vs') (hR : ∀ a a', R a a' → R' a a')
    (hclosures : ∀ a c, closures a = some c → closures' a = some c) :
    CopiedAll h closures' R' vs vs' := (copied_mono hR hclosures).2 vs vs' hvs

theorem CopiedAll.append (hvs : CopiedAll h closures R vs vs')
    (hws : CopiedAll h closures R ws ws') : CopiedAll h closures R (vs ++ ws) (vs' ++ ws') := by
  induction vs generalizing vs' with
  | nil =>
    cases hvs
    exact hws
  | cons v vs ih =>
    cases hvs with
    | cons hv hvs => exact .cons hv (ih hvs)

theorem CopiedAll.length_eq (hvs : CopiedAll h closures R vs vs') : vs'.length = vs.length := by
  induction vs generalizing vs' with
  | nil =>
    cases hvs
    rfl
  | cons v vs ih =>
    cases hvs with
    | cons _ hvs => rw [List.length_cons, List.length_cons, ih hvs]

theorem Copied.isKey (hv : Copied h closures R v v') : v'.isKey = v.isKey := by
  cases hv with
  | scalar => rfl
  | table => rfl
  | function => rfl

theorem Copied.ne_nil (hv : Copied h closures R v v') (hne : v ≠ .nil) : v' ≠ .nil := by
  cases hv with
  | scalar => exact hne
  | table => exact LuaValue.noConfusion
  | function => exact LuaValue.noConfusion

end Copied

theorem Copied.rawEqual_eq_false {h : LuaHeap} {closures : Address → Option Closure}
    {R : Address → Address → Prop} {v v' w w' : LuaValue} (hR : Relator.BiUnique R)
    (hv : Copied h closures R v v') (hw : Copied h closures R w w')
    (hfunction : ∀ a b, v' = .function a → w' = .function b → a ≠ b)
    (hne : LuaValue.rawEqual v w = false) : LuaValue.rawEqual v' w' = false := by
  cases hv with
  | scalar hc =>
    cases hw with
    | scalar => exact hne
    | table => cases v <;> first | (cases hc; done) | rfl
    | function => cases v <;> first | (cases hc; done) | rfl
  | @table a a' ha =>
    cases hw with
    | scalar hc => cases w <;> first | (cases hc; done) | rfl
    | @table b b' hb =>
      have hold : a ≠ b := by simpa [LuaValue.rawEqual] using hne
      have hnew : a' ≠ b' := by
        rintro rfl
        exact hold (hR.1 ha hb)
      simpa [LuaValue.rawEqual] using hnew
    | function => rfl
  | @function a a' c c' =>
    cases hw with
    | scalar hc => cases w <;> first | (cases hc; done) | rfl
    | table => rfl
    | @function b b' =>
      have hnew := hfunction a' b' rfl rfl
      simpa [LuaValue.rawEqual] using hnew

theorem exists_key_of_copied {h : LuaHeap} {closures : Address → Option Closure}
    {R : Address → Address → Prop} {entries : List LuaEntry} {made : LuaTable}
    (hcopied : CopiedAll h closures R (entries.flatMap fun e => [e.1, e.2]) made.elements)
    {f' : LuaEntry} (hf' : f' ∈ made.entries) :
    ∃ f ∈ entries, Copied h closures R f.1 f'.1 ∧
      ∀ a, f'.1 = .function a → ∃ c, closures a = some c := by
  rw [LuaTable.elements] at hcopied
  generalize made.entries = entries' at hcopied hf'
  induction entries generalizing entries' with
  | nil =>
    cases entries' with
    | nil => cases hf'
    | cons => cases hcopied
  | cons e entries ih =>
    cases entries' with
    | nil => cases hcopied
    | cons e' entries' =>
      cases hcopied with
      | cons hkey hcopied =>
        cases hcopied with
        | cons _ hcopied =>
          rcases List.mem_cons.mp hf' with rfl | hf'
          · refine ⟨e, List.mem_cons_self, hkey, ?_⟩
            intro a ha
            generalize e.1 = key at hkey
            rw [ha] at hkey
            cases hkey with
            | scalar hc => cases hc
            | function _ hc _ _ => exact ⟨_, hc⟩
          · obtain ⟨f, hf, hrest⟩ := ih entries' hcopied hf'
            exact ⟨f, List.mem_cons_of_mem e hf, hrest⟩

/-! ## What has been made again -/

abbrev Finished := Address → Option Closure

def LuaHeap.Keeps (H : LuaHeap) (C : Finished) : Prop :=
  ∀ a c, C a = some c → a < H.fresh ∧ H.closures a = some c

/-- Between two heaps, tables have been made and filled as the renaming says, and functions have
got their upvalues.  Of what there was, only the tables in `X` and the functions in `Y` may have
changed. -/
structure Remade (h : LuaHeap) (X Y : Address → Prop) (ρ : Renaming) (C : Finished) (H : LuaHeap)
    (ρ' : Renaming) (C' : Finished) (H' : LuaHeap) : Prop where
  grows : ∀ a a', ρ a = some a' → ρ' a = some a'
  finishes : ∀ a c, C a = some c → C' a = some c
  fresh : H.fresh ≤ H'.fresh
  kept : ∀ b < H.fresh, ¬ X b → H'.tables b = H.tables b
  keptClosures : ∀ b < H.fresh, ¬ Y b → H'.closures b = H.closures b
  unfinished : ∀ b < H.fresh, C b = none → C' b = none
  made : ∀ a a', ρ a = none → ρ' a = some a' → H.fresh ≤ a' ∧
    ∃ t t', h.tables a = some t ∧ H'.tables a' = some t' ∧ t.metatable = none ∧
      t'.metatable = none ∧ CopiedAll h C' ρ'.Rel t.elements t'.elements

section Remade

variable {h H₁ H₂ H₃ : LuaHeap} {X X' Y Y' : Address → Prop} {ρ₁ ρ₂ ρ₃ : Renaming}
  {C₁ C₂ C₃ : Finished}

theorem Remade.of_kept (hfresh : H₁.fresh ≤ H₂.fresh)
    (hkept : ∀ b < H₁.fresh, ¬ X b → H₂.tables b = H₁.tables b)
    (hclosures : ∀ b < H₁.fresh, ¬ Y b → H₂.closures b = H₁.closures b) :
    Remade h X Y ρ₁ C₁ H₁ ρ₁ C₁ H₂ where
  grows := fun _ _ ha => ha
  finishes := fun _ _ hc => hc
  fresh := hfresh
  kept := hkept
  keptClosures := hclosures
  unfinished := fun _ _ hnone => hnone
  made := by
    intro a a' hnone hsome
    rw [hnone] at hsome
    cases hsome

theorem Remade.mono (h₁ : Remade h X Y ρ₁ C₁ H₁ ρ₂ C₂ H₂) (hX : ∀ b, X b → X' b)
    (hY : ∀ b, Y b → Y' b) : Remade h X' Y' ρ₁ C₁ H₁ ρ₂ C₂ H₂ where
  grows := h₁.grows
  finishes := h₁.finishes
  fresh := h₁.fresh
  kept := fun b hb hnot => h₁.kept b hb fun hXb => hnot (hX b hXb)
  keptClosures := fun b hb hnot => h₁.keptClosures b hb fun hYb => hnot (hY b hYb)
  unfinished := h₁.unfinished
  made := h₁.made

theorem Remade.trans (h₁ : Remade h X Y ρ₁ C₁ H₁ ρ₂ C₂ H₂) (h₂ : Remade h X Y ρ₂ C₂ H₂ ρ₃ C₃ H₃)
    (hX : ∀ b, X b → b < H₁.fresh) (hbounded : ∀ a a', ρ₂ a = some a' → a' < H₂.fresh) :
    Remade h X Y ρ₁ C₁ H₁ ρ₃ C₃ H₃ where
  grows := fun a a' ha => h₂.grows a a' (h₁.grows a a' ha)
  finishes := fun a c hc => h₂.finishes a c (h₁.finishes a c hc)
  fresh := h₁.fresh.trans h₂.fresh
  kept := by
    intro b hb hbX
    rw [h₂.kept b (lt_of_lt_of_le hb h₁.fresh) hbX, h₁.kept b hb hbX]
  keptClosures := by
    intro b hb hbY
    rw [h₂.keptClosures b (lt_of_lt_of_le hb h₁.fresh) hbY, h₁.keptClosures b hb hbY]
  unfinished := fun b hb hnone =>
    h₂.unfinished b (lt_of_lt_of_le hb h₁.fresh) (h₁.unfinished b hb hnone)
  made := by
    intro a a' hnone hsome
    cases hmid : ρ₂ a with
    | none =>
      obtain ⟨hle, hmade⟩ := h₂.made a a' hmid hsome
      exact ⟨h₁.fresh.trans hle, hmade⟩
    | some b =>
      have hb := h₂.grows a b hmid
      rw [hsome, Option.some.injEq] at hb
      subst hb
      obtain ⟨hle, t, t', ht, ht', hmeta, hmeta', hcopied⟩ := h₁.made a a' hnone hmid
      have hnot : ¬ X a' := fun hXa => absurd (hX a' hXa) (not_lt.mpr hle)
      refine ⟨hle, t, t', ht, ?_, hmeta, hmeta', hcopied.mono h₂.grows h₂.finishes⟩
      rw [h₂.kept a' (hbounded a a' hmid) hnot, ht']

theorem Remade.table {a : Address} {t made : LuaTable} (hnew : ρ₁ a = none)
    (hremade : Remade h (fun b => X b ∨ b = H₁.fresh) Y (Function.update ρ₁ a (some H₁.fresh)) C₁ H₂
      ρ₃ C₃ H₃)
    (hfresh : H₂.fresh = H₁.fresh + 1)
    (hkept : ∀ b < H₁.fresh, ¬ X b → H₂.tables b = H₁.tables b)
    (hclosures : H₂.closures = H₁.closures) (ht : h.tables a = some t) (hmeta : t.metatable = none)
    (hmade : H₃.tables H₁.fresh = some made) (hmeta' : made.metatable = none)
    (hcopied : CopiedAll h C₃ ρ₃.Rel t.elements made.elements) :
    Remade h X Y ρ₁ C₁ H₁ ρ₃ C₃ H₃ := by
  have hle : H₁.fresh ≤ H₂.fresh := hfresh.ge.trans' (Nat.le_succ _)
  constructor
  · intro b b' hb
    apply hremade.grows
    rw [Function.update_of_ne]
    · exact hb
    · rintro rfl
      rw [hnew] at hb
      cases hb
  · exact hremade.finishes
  · exact hle.trans hremade.fresh
  · intro b hb hbX
    rw [hremade.kept b (lt_of_lt_of_le hb hle) (not_or.mpr ⟨hbX, hb.ne⟩), hkept b hb hbX]
  · intro b hb hbY
    rw [hremade.keptClosures b (lt_of_lt_of_le hb hle) hbY, hclosures]
  · exact fun b hb hnone => hremade.unfinished b (lt_of_lt_of_le hb hle) hnone
  · intro b b' hnone hsome
    by_cases hba : b = a
    · have ha := hremade.grows a H₁.fresh (Function.update_self _ _ _)
      rw [hba, ha, Option.some.injEq] at hsome
      subst hba hsome
      exact ⟨le_rfl, t, made, ht, hmade, hmeta, hmeta', hcopied⟩
    · obtain ⟨hle', hrest⟩ := hremade.made b b' (by rw [Function.update_of_ne hba, hnone]) hsome
      exact ⟨hle.trans hle', hrest⟩

theorem Remade.finish {c : Closure}
    (hremade : Remade h X (fun b => b = H₁.fresh) ρ₁ C₁ H₂ ρ₃ C₃ H₃)
    (hfresh : H₂.fresh = H₁.fresh + 1) (hkept : H₂.tables = H₁.tables)
    (hclosures : ∀ b < H₁.fresh, H₂.closures b = H₁.closures b) (hnone : C₁ H₁.fresh = none)  :
    Remade h X (fun _ => False) ρ₁ C₁ H₁ ρ₃ (Function.update C₃ H₁.fresh (some c)) H₃ := by
  have hle : H₁.fresh ≤ H₂.fresh := hfresh.ge.trans' (Nat.le_succ _)
  have hunfinished : C₃ H₁.fresh = none :=
    hremade.unfinished _ (by rw [hfresh]; exact Nat.lt_succ_self _) hnone
  have hgrows : ∀ b d, C₃ b = some d → Function.update C₃ H₁.fresh (some c) b = some d := by
    intro b d hd
    rw [Function.update_of_ne]
    · exact hd
    · rintro rfl
      rw [hunfinished] at hd
      cases hd
  constructor
  · exact hremade.grows
  · exact fun b d hd => hgrows b d (hremade.finishes b d hd)
  · exact hle.trans hremade.fresh
  · intro b hb hbX
    rw [hremade.kept b (lt_of_lt_of_le hb hle) hbX, hkept]
  · intro b hb _
    rw [hremade.keptClosures b (lt_of_lt_of_le hb hle) hb.ne, hclosures b hb]
  · intro b hb hbnone
    rw [Function.update_of_ne hb.ne]
    exact hremade.unfinished b (lt_of_lt_of_le hb hle) hbnone
  · intro a a' hanone hsome
    obtain ⟨hle', t, t', ht, ht', hmeta, hmeta', hcopied⟩ := hremade.made a a' hanone hsome
    exact ⟨hle.trans hle', t, t', ht, ht', hmeta, hmeta', hcopied.mono (fun _ _ hR => hR) hgrows⟩

end Remade

/-! ## Reading a stream -/

section Read

variable (h : LuaHeap) (cs : List Content) (top : ℤ) (side : Option Address)

/-- How far a reader has come, and what it has changed on the way. -/
structure Advances (Y : Address → Prop) (ρ : Renaming) (C : Finished) (L : LuaState)
    (seen' : Visited) (i' : ℕ) (ρ' : Renaming) (C' : Finished) (L' : LuaState)
    (X : Address → Prop) : Prop where
  metas : L'.metas = L.metas
  tracks : Tracks cs top side seen' ρ' i' L'
  keeps : L'.heap.Keeps C'
  remade : Remade h X Y ρ C L.heap ρ' C' L'.heap

/-- With this fuel, a reader makes a copy of what the stream stands for. -/
def Remakes (lib : LuaLibrary) (decode : ValueReader) (fuel : ℕ) : Prop :=
  ∀ (L : LuaState) (v : LuaValue) (es : List Content) (i : ℕ) (seen seen' : Visited)
    (ρ : Renaming) (C : Finished), Ships h lib seen i v es seen' → es <+: cs.drop i →
    es.length < fuel → Tracks cs top side seen ρ i L → L.heap.Keeps C →
    ∃ v' L' ρ' C', decode L (cursorAt cs i) =
        some (ReturnCode.success.toInt, L', cursorAt cs (i + es.length)) ∧
      L'.stack = v' :: L.stack ∧ Copied h C' ρ'.Rel v v' ∧
      (∀ b, v' = .function b → L.heap.fresh ≤ b) ∧
      Advances h cs top side (fun _ => False) ρ C L seen' (i + es.length) ρ' C' L'
        (fun b => side = some b)

variable {h cs top side} {lib : LuaLibrary} {decode : ValueReader} {fuel : ℕ}
  {X Y : Address → Prop} {ρ ρ₁ ρ₂ : Renaming} {C C₁ C₂ : Finished} {L L₁ L₂ : LuaState}
  {seen seen₁ seen₂ : Visited} {i i₁ i₂ : ℕ}

theorem Advances.trans (h₁ : Advances h cs top side Y ρ C L seen₁ i₁ ρ₁ C₁ L₁ X)
    (h₂ : Advances h cs top side Y ρ₁ C₁ L₁ seen₂ i₂ ρ₂ C₂ L₂ X)
    (hX : ∀ b, X b → b < L.heap.fresh) :
    Advances h cs top side Y ρ C L seen₂ i₂ ρ₂ C₂ L₂ X where
  metas := h₂.metas.trans h₁.metas
  tracks := h₂.tracks
  keeps := h₂.keeps
  remade := h₁.remade.trans h₂.remade hX h₁.tracks.bounded

theorem Advances.mono {X' Y' : Address → Prop}
    (h₁ : Advances h cs top side Y ρ C L seen₁ i₁ ρ₁ C₁ L₁ X) (hX : ∀ b, X b → X' b)
    (hY : ∀ b, Y b → Y' b) : Advances h cs top side Y' ρ C L seen₁ i₁ ρ₁ C₁ L₁ X' where
  metas := h₁.metas
  tracks := h₁.tracks
  keeps := h₁.keeps
  remade := h₁.remade.mono hX hY

theorem LuaHeap.Keeps.of_closures {H H' : LuaHeap} (hkeeps : H.Keeps C)
    (hfresh : H.fresh ≤ H'.fresh)
    (hclosures : ∀ a, C a ≠ none → H'.closures a = H.closures a) : H'.Keeps C := by
  intro a c hc
  obtain ⟨hlt, hclosure⟩ := hkeeps a c hc
  refine ⟨lt_of_lt_of_le hlt hfresh, ?_⟩
  rw [hclosures a (by rw [hc]; exact Option.some_ne_none c), hclosure]

theorem Remakes.entry (hdecode : Remakes h cs top side lib decode fuel) {n : Address}
    (hn : side ≠ some n) {t made : LuaTable} {before after : List LuaEntry} {e : LuaEntry}
    (hentries : t.entries = before ++ e :: after) {stack : List LuaValue}
    (hstack : L.stack = .table n :: stack) (hmade : L.heap.tables n = some made)
    (hcopied : CopiedAll h C ρ.Rel (before.flatMap fun e => [e.1, e.2]) made.elements)
    {seenk seenv : Visited} {csk csv : List Content} (hkey : Ships h lib seen i e.1 csk seenk)
    (hvalue : Ships h lib seenk (i + csk.length) e.2 csv seenv)
    (hcsk : csk <+: cs.drop i) (hcsv : csv <+: cs.drop (i + csk.length))
    (hfuelk : csk.length < fuel) (hfuelv : csv.length < fuel)
    (htracks : Tracks cs top side seen ρ i L) (hkeeps : L.heap.Keeps C) :
    ∃ Lk Lv L' ρ' C' made',
      decode L (cursorAt cs i) =
        some (ReturnCode.success.toInt, Lk, cursorAt cs (i + csk.length)) ∧
      decode Lk (cursorAt cs (i + csk.length)) =
        some (ReturnCode.success.toInt, Lv, cursorAt cs (i + csk.length + csv.length)) ∧
      luaRawset Lv (-3) = some L' ∧ L'.stack = .table n :: stack ∧
      L'.heap.tables n = some made' ∧ made'.metatable = made.metatable ∧
      CopiedAll h C' ρ'.Rel ((before ++ [e]).flatMap fun e => [e.1, e.2]) made'.elements ∧
      Advances h cs top side (fun _ => False) ρ C L seenv (i + csk.length + csv.length) ρ' C' L'
        (fun b => side = some b ∨ b = n) := by
  have hnlt : n < L.heap.fresh := LuaHeap.lt_fresh hmade
  have hside : ∀ b, side = some b → b < L.heap.fresh := fun b hb => htracks.side_lt hb
  obtain ⟨k', Lk, ρk, Ck, hreadk, hstackk, hcopiedk, hfreshk, hadvk⟩ :=
    hdecode L e.1 csk i seen seenk ρ C hkey hcsk hfuelk htracks hkeeps
  obtain ⟨v', Lv, ρv, Cv, hreadv, hstackv, hcopiedv, -, hadvv⟩ :=
    hdecode Lk e.2 csv (i + csk.length) seenk seenv ρk Ck hvalue hcsv hfuelv hadvk.tracks
      hadvk.keeps
  have hadv := hadvk.trans hadvv hside
  have hremade := hadv.remade
  have hmadev : Lv.heap.tables n = some made := (hremade.kept n hnlt hn).trans hmade
  rw [hstackk, hstack] at hstackv
  have hcopiedk' := hcopiedk.mono hadvv.remade.grows hadvv.remade.finishes
  have hcopied' := hcopied.mono hremade.grows hremade.finishes
  have hmem : e ∈ t.entries := by simp [hentries]
  have hdistinct : ∀ f ∈ before, LuaValue.rawEqual f.1 e.1 = false := by
    have hpairwise := t.distinct
    rw [hentries, List.pairwise_append] at hpairwise
    exact fun f hf => hpairwise.2.2 f hf e List.mem_cons_self
  -- a key that is a function is newer than all the functions in the table
  have hnew : ∀ f' ∈ made.entries, LuaValue.rawEqual f'.1 k' = false := by
    intro f' hf'
    obtain ⟨f, hf, hff', hold⟩ := exists_key_of_copied hcopied hf'
    refine (hff'.mono hremade.grows hremade.finishes).rawEqual_eq_false hadv.tracks.biUnique
      hcopiedk' ?_ (hdistinct f hf)
    rintro a b ha hb rfl
    obtain ⟨c, hc⟩ := hold a ha
    exact absurd (hkeeps a c hc).1 (not_lt.mpr (hfreshk a hb))
  obtain ⟨made', hset, hentries', hmeta⟩ := luaRawset_fresh hstackv hmadev
    (hcopiedk'.isKey.trans (t.keys e hmem)) (hcopiedv.ne_nil (t.values e hmem)) hnew
  have hput : ∀ b, b ≠ n → (Lv.heap.put n made').tables b = Lv.heap.tables b :=
    fun b hb => Function.update_of_ne hb _ _
  refine ⟨Lk, Lv, _, ρv, Cv, made', hreadk, hreadv, hset, rfl, ?_, hmeta, ?_, hadv.metas, ?_,
    hadv.keeps, ?_⟩
  · show Function.update _ n _ n = _
    rw [Function.update_self, hmadev]
    rfl
  · rw [LuaTable.elements, hentries', List.flatMap_append, List.flatMap_append]
    exact hcopied'.append (.cons hcopiedk' (.cons hcopiedv .nil))
  · apply hadv.tracks.later le_rfl
    · exact le_refl Lv.heap.fresh
    · intro s hs
      exact htracks.value_top hs ⟨[], hstack.symm⟩
    · intro s hs
      have hne : s ≠ n := by
        rintro rfl
        exact hn hs
      exact hput s hne
  · have hchanged : Remade h (fun b => side = some b ∨ b = n) (fun _ => False) ρv Cv Lv.heap ρv Cv
        (Lv.heap.put n made') :=
      Remade.of_kept (le_refl Lv.heap.fresh) (fun b _ hb => hput b fun heq => hb (.inr heq))
        fun _ _ _ => rfl
    apply (hremade.mono (fun b hb => .inl hb) fun _ hb => hb).trans hchanged _ hadv.tracks.bounded
    rintro b (hb | rfl)
    · exact hside b hb
    · exact hnlt

theorem Remakes.entries (hdecode : Remakes h cs top side lib decode fuel) {n : Address}
    (hn : side ≠ some n) {t made : LuaTable} {before after : List LuaEntry}
    (hentries : t.entries = before ++ after) {stack : List LuaValue}
    (hstack : L.stack = .table n :: stack) (hmade : L.heap.tables n = some made)
    (hmeta : made.metatable = none)
    (hcopied : CopiedAll h C ρ.Rel (before.flatMap fun e => [e.1, e.2]) made.elements)
    {seen' : Visited} {es : List Content}
    (hall : ShipsAll h lib seen i (after.flatMap fun e => [e.1, e.2]) es seen')
    (hes : es <+: cs.drop i) (hfuel : es.length < fuel) (htracks : Tracks cs top side seen ρ i L)
    (hkeeps : L.heap.Keeps C) :
    ∃ L' ρ' C' made', decodeEntries decode after.length L (cursorAt cs i) =
        some (L', cursorAt cs (i + es.length)) ∧
      L'.stack = .table n :: stack ∧ L'.heap.tables n = some made' ∧ made'.metatable = none ∧
      CopiedAll h C' ρ'.Rel t.elements made'.elements ∧
      Advances h cs top side (fun _ => False) ρ C L seen' (i + es.length) ρ' C' L'
        (fun b => side = some b ∨ b = n) := by
  have hnlt : n < L.heap.fresh := LuaHeap.lt_fresh hmade
  induction after generalizing before L made ρ C seen es i with
  | nil =>
    cases hall
    rw [List.append_nil] at hentries
    refine ⟨L, ρ, C, made, rfl, hstack, hmade, hmeta, ?_, rfl, htracks, hkeeps,
      Remade.of_kept le_rfl (fun _ _ _ => rfl) fun _ _ _ => rfl⟩
    rw [LuaTable.elements, hentries]
    exact hcopied
  | cons e after ih =>
    rw [List.flatMap_cons] at hall
    cases hall with
    | cons hkey hrest =>
      rename_i seenk csk csv
      cases hrest with
      | cons hvalue hrest =>
        rename_i seenv csv csr
        obtain ⟨hcsk, hcsvr⟩ := prefix_drop_append hes
        obtain ⟨hcsv, hcsr⟩ := prefix_drop_append hcsvr
        rw [List.length_append, List.length_append] at hfuel
        obtain ⟨Lk, Lv, L₁, ρ₁, C₁, made₁, hreadk, hreadv, hset, hstack₁, hmade₁, hmeta₁, hcopied₁,
          hadv₁⟩ := hdecode.entry hn hentries hstack hmade hcopied hkey hvalue hcsk hcsv
          (by omega) (by omega) htracks hkeeps
        have hentries₁ : t.entries = (before ++ [e]) ++ after :=
          hentries.trans (List.append_cons before e after)
        obtain ⟨L', ρ', C', made', hloop, hstack', hmade', hmeta', hcopied', hadv'⟩ :=
          ih hentries₁ hstack₁ hmade₁ (hmeta₁.trans hmeta) hcopied₁ hrest hcsr (by omega)
            hadv₁.tracks hadv₁.keeps (lt_of_lt_of_le hnlt hadv₁.remade.fresh)
        have hpos : i + csk.length + csv.length + csr.length =
            i + (csk ++ (csv ++ csr)).length := by
          rw [List.length_append, List.length_append]
          omega
        rw [hpos] at hloop hadv'
        refine ⟨L', ρ', C', made', ?_, hstack', hmade', hmeta', hcopied', ?_⟩
        · rw [List.length_cons, decodeEntries, hreadk]
          simp only [Option.bind_eq_bind, Option.bind_some, hreadv, hset, hloop]
        · apply hadv₁.trans hadv'
          rintro b (hb | rfl)
          · exact htracks.side_lt hb
          · exact hnlt

theorem luaSetupvalue_next {n : Address} {v : LuaValue} {stack : List LuaValue}
    (hstack : L.stack = v :: .function n :: stack) {code : List Byte} {vs : List LuaValue} {m : ℕ}
    (hclosure : L.heap.closures n = some ⟨code, vs ++ List.replicate (m + 1) .nil⟩) :
    luaSetupvalue L (-2) (vs.length + 1) =
      some { L with
        stack := .function n :: stack
        heap := L.heap.putClosure n ⟨code, vs ++ [v] ++ List.replicate m .nil⟩ } := by
  have hset : (vs ++ List.replicate (m + 1) LuaValue.nil).set vs.length v =
      vs ++ [v] ++ List.replicate m .nil := by
    rw [List.set_append_right _ _ le_rfl, Nat.sub_self, List.replicate_succ, List.set_cons_zero,
      List.append_assoc]
    rfl
  have hlt : vs.length < (vs ++ List.replicate (m + 1) LuaValue.nil).length := by
    simp
  unfold luaSetupvalue
  rw [LuaState.value_second ⟨stack, hstack⟩]
  simp only [hstack, hclosure, Nat.add_sub_cancel, hset]
  exact if_pos hlt

theorem Remakes.upvalues (hdecode : Remakes h cs top side lib decode fuel) {n : Address}
    {code : List Byte} {before after vs : List LuaValue} {stack : List LuaValue}
    (hstack : L.stack = .function n :: stack) (hnlt : n < L.heap.fresh) (hnone : C n = none)
    (hclosure : L.heap.closures n = some ⟨code, vs ++ List.replicate after.length .nil⟩)
    (hcopied : CopiedAll h C ρ.Rel before vs) {seen' : Visited} {es : List Content}
    (hall : ShipsAll h lib seen i after es seen') (hes : es <+: cs.drop i)
    (hfuel : es.length < fuel) (htracks : Tracks cs top side seen ρ i L)
    (hkeeps : L.heap.Keeps C) :
    ∃ L' ρ' C' vs', decodeUpvalues decode after.length vs.length L (cursorAt cs i) =
        some (L', cursorAt cs (i + es.length)) ∧
      L'.stack = .function n :: stack ∧ L'.heap.closures n = some ⟨code, vs'⟩ ∧
      CopiedAll h C' ρ'.Rel (before ++ after) vs' ∧
      Advances h cs top side (fun b => b = n) ρ C L seen' (i + es.length) ρ' C' L'
        (fun b => side = some b) := by
  induction after generalizing before vs L ρ C seen es i with
  | nil =>
    cases hall
    rw [List.length_nil, List.replicate_zero, List.append_nil] at hclosure
    rw [List.append_nil]
    exact ⟨L, ρ, C, vs, rfl, hstack, hclosure, hcopied, rfl, htracks, hkeeps,
      Remade.of_kept le_rfl (fun _ _ _ => rfl) fun _ _ _ => rfl⟩
  | cons u after ih =>
    cases hall with
    | cons hu hrest =>
      rename_i seenu csu csr
      obtain ⟨hcsu, hcsr⟩ := prefix_drop_append hes
      rw [List.length_append] at hfuel
      obtain ⟨u', Lu, ρu, Cu, hreadu, hstacku, hcopiedu, -, hadvu⟩ :=
        hdecode L u csu i seen seenu ρ C hu hcsu (by omega) htracks hkeeps
      rw [hstack] at hstacku
      have hnone' : Cu n = none := hadvu.remade.unfinished n hnlt hnone
      have hclosure' : Lu.heap.closures n =
          some ⟨code, vs ++ List.replicate (after.length + 1) .nil⟩ := by
        rw [hadvu.remade.keptClosures n hnlt not_false, hclosure, List.length_cons]
      have hset := luaSetupvalue_next hstacku hclosure'
      generalize hL₁ : ({ Lu with
        stack := .function n :: stack
        heap := Lu.heap.putClosure n ⟨code, vs ++ [u'] ++ List.replicate after.length .nil⟩ } :
          LuaState) = L₁ at hset
      have hput : ∀ b, b ≠ n → L₁.heap.closures b = Lu.heap.closures b := by
        intro b hb
        rw [← hL₁]
        exact Function.update_of_ne hb _ _
      have hclosure₁ : L₁.heap.closures n =
          some ⟨code, vs ++ [u'] ++ List.replicate after.length .nil⟩ := by
        rw [← hL₁]
        exact Function.update_self _ _ _
      have hstack₁ : L₁.stack = .function n :: stack := by rw [← hL₁]
      have hfresh₁ : L₁.heap.fresh = Lu.heap.fresh := by rw [← hL₁]; rfl
      have htables₁ : L₁.heap.tables = Lu.heap.tables := by rw [← hL₁]; rfl
      have hmetas₁ : L₁.metas = Lu.metas := by rw [← hL₁]
      have hkeeps₁ : L₁.heap.Keeps Cu := by
        refine hadvu.keeps.of_closures hfresh₁.ge fun b hb => hput b ?_
        rintro rfl
        exact hb hnone'
      have htracks₁ : Tracks cs top side seenu ρu (i + csu.length) L₁ := by
        refine hadvu.tracks.later le_rfl hfresh₁.ge ?_ fun s _ => by rw [htables₁]
        intro s hs
        exact htracks.value_top hs ⟨[], by rw [hstack₁, hstack]; rfl⟩
      have hadv₁ : Advances h cs top side (fun b => b = n) ρ C L seenu (i + csu.length) ρu Cu L₁
          (fun b => side = some b) := by
        refine ⟨hmetas₁.trans hadvu.metas, htracks₁, hkeeps₁, ?_⟩
        refine (hadvu.remade.mono (fun _ hb => hb) fun _ hb => hb.elim).trans ?_
          (fun b hb => htracks.side_lt hb) hadvu.tracks.bounded
        exact Remade.of_kept hfresh₁.ge (fun b _ _ => by rw [htables₁]) fun b _ hb => hput b hb
      obtain ⟨L', ρ', C', vs', hloop, hstack', hclosure'', hcopied', hadv'⟩ :=
        ih hstack₁ (lt_of_lt_of_le hnlt hadv₁.remade.fresh) hnone' hclosure₁
          ((hcopied.mono hadvu.remade.grows hadvu.remade.finishes).append
            (.cons hcopiedu .nil)) hrest hcsr (by omega) htracks₁ hkeeps₁
      rw [Nat.add_assoc, ← List.length_append] at hloop hadv'
      rw [List.length_append, List.length_singleton] at hloop
      rw [List.append_assoc] at hcopied'
      refine ⟨L', ρ', C', vs', ?_, hstack', hclosure'', hcopied',
        hadv₁.trans hadv' fun b hb => htracks.side_lt hb⟩
      rw [List.length_cons, decodeUpvalues, hreadu]
      simp only [Option.bind_eq_bind, Option.bind_some, hset, hloop]

theorem closures_created {referenced : Bool} {count : ℤ} {L L' : LuaState}
    (hcreate : (if referenced then
      (luaPushvalue (luaCreatetable L) (-1)).bind fun L => luaRawseti L top count
      else some (luaCreatetable L)) = some L') :
    L'.heap.closures = L.heap.closures ∧ L'.metas = L.metas := by
  cases referenced with
  | false =>
    cases hcreate
    exact ⟨rfl, rfl⟩
  | true =>
    rw [if_pos rfl, luaPushvalue, LuaState.value_top ⟨L.stack, rfl⟩, Option.map_some,
      Option.bind_some] at hcreate
    unfold luaRawseti at hcreate
    obtain ⟨⟨s, t⟩, -, hcreate⟩ := Option.bind_eq_some_iff.mp hcreate
    obtain ⟨t', -, hcreate⟩ := Option.bind_eq_some_iff.mp hcreate
    cases hcreate
    exact ⟨rfl, rfl⟩

theorem decodeBody_function {count : ℤ} {v : Value} {cur : Cursor} {upvals : Word}
    {code : List Byte} (hv : v.content? = some (.function upvals code)) :
    decodeBody lib decode top count v L cur .tFunction =
      decodeUpvalues decode upvals.toInt.toNat 0 (luaLoadbuffer L lib code) cur := by
  have hvalueType := Value.content?_valueType hv
  rw [Value.content?_tFunction hvalueType] at hv
  obtain ⟨code', hpayload, hcontent⟩ := Option.map_eq_some_iff.mp hv
  cases hcontent
  simp only [decodeBody, hpayload, Option.bind_eq_bind, Option.bind_some]

variable {m : Message} {limit : ℕ}

theorem remakes_table [lib.StackGrows] (hcarries : Carries m cs limit)
    (hneeded : ∀ ref, Content.reference ref ∈ cs → side ≠ none)
    (hdecode : Remakes h cs top side lib (decodeValue lib m top fuel) fuel) {a : Address}
    {t : LuaTable} {es : List Content} {seen' : Visited} (hnew : seen a = none)
    (ht : h.tables a = some t) (hmeta : t.metatable = none)
    (hall : ShipsAll h lib (Function.update seen a (some i)) (i + 1) t.elements es seen')
    (hes : t.header (lib.objlen a) :: es <+: cs.drop i) (hlimit : streamSize (cs.take i) < limit)
    (hfuel : es.length < fuel) (htracks : Tracks cs top side seen ρ i L)
    (hkeeps : L.heap.Keeps C) :
    ∃ a' L' ρ' C', decodeValue lib m top (fuel + 1) L (cursorAt cs i) =
        some (ReturnCode.success.toInt, L', cursorAt cs (i + 1 + es.length)) ∧
      L'.stack = .table a' :: L.stack ∧ ρ' a = some a' ∧
      Advances h cs top side (fun _ => False) ρ C L seen' (i + 1 + es.length) ρ' C' L'
        (fun b => side = some b) := by
  have hc := getElem?_of_drop hes
  have hlength := length_le_streamSize cs
  have hsmall := hcarries.small
  have hlt := (List.getElem?_eq_some_iff.mp hc).1
  have hle := hes.length_le
  rw [List.length_cons, List.length_drop] at hle
  have hslots : (BitVec.ofNat 32 t.entries.length).toNat = t.entries.length := by
    have hentries := hall.length_le
    rw [LuaTable.length_elements] at hentries
    exact toNat_ofNat_of_lt (by omega)
  obtain ⟨v, hv, hreferenced, hread⟩ := hcarries.decodeValue lib top hc hlimit fuel L
  obtain ⟨L₁, hcreate, hstack₁, hfresh₁, hmade₁, hkept₁, htracks₁⟩ :=
    htracks.create hneeded (by omega) hreferenced a
  obtain ⟨hclosures₁, hmetas₁⟩ := closures_created hcreate
  have hρ : ρ a = none := by
    have hdomain := htracks.domain a
    rw [hnew] at hdomain
    exact Option.isSome_eq_false_iff.mp hdomain |> Option.isNone_iff_eq_none.mp
  have hn : side ≠ some L.heap.fresh := fun hs => (htracks.side_lt hs).false
  have hkeeps₁ : L₁.heap.Keeps C :=
    hkeeps.of_closures (by rw [hfresh₁]; exact Nat.le_succ _) fun b _ => by rw [hclosures₁]
  rw [← List.singleton_append] at hes
  obtain ⟨L', ρ', C', made, hloop, hstack', hmade, hmeta', hcopied, hadv⟩ :=
    hdecode.entries hn (List.nil_append _).symm hstack₁ hmade₁ rfl .nil hall
      (prefix_drop_append hes).2 hfuel htracks₁ hkeeps₁
  refine ⟨L.heap.fresh, L', ρ', C', ?_, hstack', ?_, hadv.metas.trans hmetas₁, hadv.tracks,
    hadv.keeps, ?_⟩
  · rw [hread]
    show Option.map _ (decodeBody _ _ _ _ _ _ _ .tTable) = _
    rw [decodeBody_table hv, hcreate, hslots, Option.bind_some, hloop]
    rfl
  · exact hadv.remade.grows a _ (Function.update_self _ _ _)
  · exact hadv.remade.table hρ hfresh₁ hkept₁ hclosures₁ ht hmeta hmade hmeta' hcopied

theorem remakes_function [lib.StackGrows] (hcarries : Carries m cs limit)
    (hdecode : Remakes h cs top side lib (decodeValue lib m top fuel) fuel) {c : Closure}
    {es : List Content} {seen' : Visited}
    (hload : lib.chunk c.code = some c.upvalues.length)
    (hall : ShipsAll h lib seen (i + 1) c.upvalues es seen')
    (hes : c.header :: es <+: cs.drop i) (hlimit : streamSize (cs.take i) < limit)
    (hfuel : es.length < fuel) (htracks : Tracks cs top side seen ρ i L)
    (hkeeps : L.heap.Keeps C) :
    ∃ L' ρ' C' vs', decodeValue lib m top (fuel + 1) L (cursorAt cs i) =
        some (ReturnCode.success.toInt, L', cursorAt cs (i + 1 + es.length)) ∧
      L'.stack = .function L.heap.fresh :: L.stack ∧
      C' L.heap.fresh = some ⟨c.code, vs'⟩ ∧ CopiedAll h C' ρ'.Rel c.upvalues vs' ∧
      Advances h cs top side (fun _ => False) ρ C L seen' (i + 1 + es.length) ρ' C' L'
        (fun b => side = some b) := by
  have hc := getElem?_of_drop hes
  have hlength := length_le_streamSize cs
  have hsmall := hcarries.small
  have hlt := (List.getElem?_eq_some_iff.mp hc).1
  have hle := hes.length_le
  rw [List.length_cons, List.length_drop] at hle
  have hupvals : (BitVec.ofNat 32 c.upvalues.length).toInt.toNat = c.upvalues.length := by
    have hupvalues := hall.length_le
    rw [toInt_ofNat_small (by omega), Int.toNat_natCast]
  obtain ⟨v, hv, -, hread⟩ := hcarries.decodeValue lib top hc hlimit fuel L
  have hnone : C L.heap.fresh = none := by
    cases hsome : C L.heap.fresh with
    | none => rfl
    | some d => exact absurd (hkeeps _ d hsome).1 (lt_irrefl _)
  generalize hL₁ : luaLoadbuffer L lib c.code = L₁
  have hloaded : L₁ = { L with
      stack := .function L.heap.fresh :: L.stack
      heap := L.heap.load ⟨c.code, List.replicate c.upvalues.length .nil⟩ } := by
    rw [← hL₁, luaLoadbuffer, hload]
  have hstack₁ : L₁.stack = .function L.heap.fresh :: L.stack := by rw [hloaded]
  have hfresh₁ : L₁.heap.fresh = L.heap.fresh + 1 := by rw [hloaded]; rfl
  have htables₁ : L₁.heap.tables = L.heap.tables := by rw [hloaded]; rfl
  have hmetas₁ : L₁.metas = L.metas := by rw [hloaded]
  have hput : ∀ b, b ≠ L.heap.fresh → L₁.heap.closures b = L.heap.closures b := by
    intro b hb
    rw [hloaded]
    exact Function.update_of_ne hb _ _
  have hclosure₁ : L₁.heap.closures L.heap.fresh =
      some ⟨c.code, [] ++ List.replicate c.upvalues.length .nil⟩ := by
    rw [hloaded]
    exact Function.update_self _ _ _
  have hkeeps₁ : L₁.heap.Keeps C := by
    refine hkeeps.of_closures (by rw [hfresh₁]; exact Nat.le_succ _) fun b hb => hput b ?_
    rintro rfl
    exact hb hnone
  have htracks₁ : Tracks cs top side seen ρ (i + 1) L₁ := by
    refine htracks.later (Nat.le_succ i) (by rw [hfresh₁]; exact Nat.le_succ _) ?_
      fun s _ => by rw [htables₁]
    intro s hs
    exact htracks.value_top hs ⟨[.function L.heap.fresh], hstack₁⟩
  rw [← List.singleton_append] at hes
  obtain ⟨L', ρ', C', vs', hloop, hstack', hclosure', hcopied, hadv⟩ :=
    hdecode.upvalues hstack₁ (by rw [hfresh₁]; exact Nat.lt_succ_self _) hnone hclosure₁ .nil hall
      (prefix_drop_append hes).2 hfuel htracks₁ hkeeps₁
  have hremade := hadv.remade.finish (c := ⟨c.code, vs'⟩) hfresh₁ htables₁
    (fun b hb => hput b hb.ne) hnone
  have hunfinished : C' L.heap.fresh = none :=
    hadv.remade.unfinished _ (by rw [hfresh₁]; exact Nat.lt_succ_self _) hnone
  refine ⟨L', ρ', Function.update C' L.heap.fresh (some ⟨c.code, vs'⟩), vs', ?_, hstack',
    Function.update_self _ _ _, ?_, hadv.metas.trans hmetas₁, hadv.tracks, ?_, hremade⟩
  · rw [hread]
    show Option.map _ (decodeBody _ _ _ _ _ _ _ .tFunction) = _
    rw [decodeBody_function hv, hupvals, hL₁]
    change Option.map _ (decodeUpvalues _ c.upvalues.length ([] : List LuaValue).length _ _) = _
    rw [hloop]
    rfl
  · refine hcopied.mono (fun _ _ hR => hR) fun b d hd => ?_
    rw [Function.update_of_ne]
    · exact hd
    · rintro rfl
      rw [hunfinished] at hd
      cases hd
  · intro b d hd
    by_cases hb : b = L.heap.fresh
    · rw [hb, Function.update_self, Option.some.injEq] at hd
      rw [hb, ← hd]
      refine ⟨?_, hclosure'⟩
      exact lt_of_lt_of_le (by rw [hfresh₁]; exact Nat.lt_succ_self _) hadv.remade.fresh
    · rw [Function.update_of_ne hb] at hd
      exact hadv.keeps b d hd

theorem decodeValue_remakes [lib.StackGrows] (hcarries : Carries m cs limit)
    (hread : ∀ i < cs.length, streamSize (cs.take i) < limit)
    (hneeded : ∀ ref, Content.reference ref ∈ cs → side ≠ none) (fuel : ℕ) :
    Remakes h cs top side lib (decodeValue lib m top fuel) fuel := by
  induction fuel with
  | zero => exact fun _ _ _ _ _ _ _ _ _ _ hfuel => (Nat.not_lt_zero _ hfuel).elim
  | succ fuel ih =>
    intro L v es i seen seen' ρ C hships hes hfuel htracks hkeeps
    have hsame : ∀ w : LuaValue,
        Advances h cs top side (fun _ => False) ρ C L seen (i + 1) ρ C (L.push w)
          (fun b => side = some b) := fun w =>
      ⟨rfl, htracks.push w, hkeeps, Remade.of_kept le_rfl (fun _ _ _ => rfl) fun _ _ _ => rfl⟩
    cases hships with
    | @scalar _ _ _ c hv =>
      have hc := getElem?_of_drop hes
      have hlt := (List.getElem?_eq_some_iff.mp hc).1
      obtain ⟨w, hw, -, hdecode⟩ := hcarries.decodeValue lib top hc (hread i hlt) fuel L
      refine ⟨v, L.push v, ρ, C, ?_, rfl, .scalar hv, ?_, hsame v⟩
      · rw [hdecode, decodeBody_scalar hw hv]
        rfl
      · rintro b rfl
        cases hv
    | @reference _ _ j a ha =>
      have hc := getElem?_of_drop hes
      have hlt := (List.getElem?_eq_some_iff.mp hc).1
      obtain ⟨a', ha', hdecode⟩ :=
        decodeValue_reference lib hcarries hneeded ha hc (hread i hlt) htracks fuel
      refine ⟨.table a', L.push (.table a'), ρ, C, hdecode, rfl, .table ha', ?_, hsame _⟩
      intro b hb
      cases hb
    | @table _ _ _ a t es hnew ht hmeta hall =>
      have hlt := (List.getElem?_eq_some_iff.mp (getElem?_of_drop hes)).1
      rw [List.length_cons] at hfuel
      obtain ⟨a', L', ρ', C', hdecode, hstack', ha', hadv⟩ :=
        remakes_table hcarries hneeded ih hnew ht hmeta hall hes (hread i hlt) (by omega)
          htracks hkeeps
      rw [Nat.add_assoc, Nat.add_comm 1] at hdecode hadv
      refine ⟨.table a', L', ρ', C', hdecode, hstack', .table ha', ?_, hadv⟩
      intro b hb
      cases hb
    | @function _ _ _ _ _ _ hclosure hload hall =>
      have hlt := (List.getElem?_eq_some_iff.mp (getElem?_of_drop hes)).1
      rw [List.length_cons] at hfuel
      obtain ⟨L', ρ', C', vs', hdecode, hstack', hfinished, hcopied, hadv⟩ :=
        remakes_function hcarries ih hload hall hes (hread i hlt) (by omega) htracks
          hkeeps
      rw [Nat.add_assoc, Nat.add_comm 1] at hdecode hadv
      refine ⟨.function L.heap.fresh, L', ρ', C', hdecode, hstack',
        .function hclosure hfinished rfl hcopied, ?_, hadv⟩
      intro b hb
      cases hb
      exact le_rfl

variable (lib) in
/-- The loop of `lua_decodemessage` makes a copy of a tuple. -/
theorem decodeLoop_remakes [lib.StackGrows] (hcarries : Carries m cs limit)
    (hread : ∀ i < cs.length, streamSize (cs.take i) < limit) (hend : limit ≤ streamSize cs)
    (hneeded : ∀ ref, Content.reference ref ∈ cs → side ≠ none) {fuel n : ℕ} {vs : List LuaValue}
    {es : List Content} {seen' : Visited} (hall : ShipsAll h lib seen i vs es seen')
    (hes : cs.drop i = es) (hi : i + es.length = cs.length) (hfuel : es.length < fuel)
    (hn : vs.length < n) (htracks : Tracks cs top side seen ρ i L) (hkeeps : L.heap.Keeps C) :
    ∃ vs' L' ρ' C', decodeLoop lib m top fuel n L (cursorAt cs i) = some L' ∧
      L'.stack = vs'.reverse ++ L.stack ∧ CopiedAll h C' ρ'.Rel vs vs' ∧
      Advances h cs top side (fun _ => False) ρ C L seen' cs.length ρ' C' L'
        (fun b => side = some b) := by
  induction vs generalizing n L es i seen ρ C with
  | nil =>
    obtain ⟨n, rfl⟩ := Nat.exists_eq_succ_of_ne_zero (Nat.ne_of_gt hn)
    obtain ⟨fuel, rfl⟩ := Nat.exists_eq_succ_of_ne_zero (Nat.ne_of_gt (Nat.zero_lt_of_lt hfuel))
    cases hall
    rw [List.length_nil, Nat.add_zero] at hi
    have hlast := hcarries.decodeValue_end lib top (i := i)
      (by rw [hi, List.take_length]; exact hend) fuel L
    rw [hi] at htracks
    refine ⟨[], L, ρ, C, ?_, rfl, .nil, rfl, htracks, hkeeps,
      Remade.of_kept le_rfl (fun _ _ _ => rfl) fun _ _ _ => rfl⟩
    rw [decodeLoop, hlast]
    rfl
  | cons v vs ih =>
    obtain ⟨n, rfl⟩ := Nat.exists_eq_succ_of_ne_zero (Nat.ne_of_gt (Nat.zero_lt_of_lt hn))
    cases hall with
    | cons hv hrest =>
      rename_i seenv csv csr
      have hstart : csv ++ csr <+: cs.drop i := by rw [hes]
      rw [List.length_append] at hi hfuel
      obtain ⟨v', L₁, ρ₁, C₁, hdecode, hstack₁, hcopied₁, -, hadv₁⟩ :=
        decodeValue_remakes hcarries hread hneeded fuel L v csv i seen seenv ρ C hv
          (prefix_drop_append hstart).1 (by omega) htracks hkeeps
      have hes' : cs.drop (i + csv.length) = csr := by
        rw [← List.drop_drop, hes, List.drop_left]
      obtain ⟨vs', L', ρ', C', hloop, hstack', hcopied', hadv'⟩ :=
        ih hrest hes' (by omega) (by omega) (Nat.lt_of_succ_lt_succ hn) hadv₁.tracks hadv₁.keeps
      refine ⟨v' :: vs', L', ρ', C', ?_, ?_,
        .cons (hcopied₁.mono hadv'.remade.grows hadv'.remade.finishes) hcopied',
        hadv₁.trans hadv' fun b hb => htracks.side_lt hb⟩
      · rw [decodeLoop, hdecode]
        exact hloop
      · rw [hstack', hstack₁, List.reverse_cons, List.append_assoc]
        rfl

end Read

/-! ## Round trips -/

/-- The values are a copy in which everything with an identity is from `base` on, tables
correspond one to one, and there are no metatables. -/
def LuaHeap.CopiesTo (h : LuaHeap) (vs : List LuaValue) (H : LuaHeap) (base : Address)
    (vs' : List LuaValue) : Prop :=
  ∃ R : Address → Address → Prop, Relator.BiUnique R ∧
    CopiedAll h (fun a => if base ≤ a then H.closures a else none) R vs vs' ∧
    ∀ a a', R a a' → base ≤ a' ∧ ∃ t t', h.tables a = some t ∧ H.tables a' = some t' ∧
      t.metatable = none ∧ t'.metatable = none ∧
      CopiedAll h (fun a => if base ≤ a then H.closures a else none) R t.elements t'.elements

/-- What there was before the first new address is as it was. -/
def LuaState.Extends (R R' : LuaState) : Prop :=
  R'.metas = R.metas ∧
    ∀ a < R.heap.fresh, R'.heap.tables a = R.heap.tables a ∧ R'.heap.closures a = R.heap.closures a

/-- With enough fuel, `lua_decodemessage` of the message made of the values on top of one stack puts
a copy of them on another, and changes the stack below as `stackBelow` says. -/
def FunctionsSurvive (lib : LuaLibrary) (mem : ℕ → Block) (buf : Block) (slack : ℕ)
    (L R : LuaState) (vs : List LuaValue) : Prop :=
  ∃ N, ∀ fuel ≥ N, ∃ m L' R' vs',
    luaNewmessage lib mem buf slack fuel L vs.length = some (m, L') ∧
      L'.stack = L.stack.drop vs.length ∧
      luaDecodemessage lib m fuel R =
        (if m.refs = 0 ∨ R.stack ≠ [] then some ((vs.length : ℤ), R') else none) ∧
      R'.stack = vs'.reverse ++ stackBelow m R ∧ R.Extends R' ∧
      L.heap.CopiesTo vs R'.heap R.heap.fresh vs'

section RoundTrip

variable {lib : LuaLibrary} {mem : ℕ → Block} {buf : Block} {slack : ℕ} {L R : LuaState}
  {vs rest : List LuaValue} {cs : List Content} {seen : Visited}

theorem decodeStart_extends (m : Message) (R : LuaState) :
    R.Extends (decodeStart m R) ∧ R.heap.fresh ≤ (decodeStart m R).heap.fresh := by
  unfold decodeStart
  split
  · refine ⟨⟨rfl, ?_⟩, Nat.le_succ _⟩
    intro a ha
    exact ⟨Function.update_of_ne ha.ne _ _, rfl⟩
  · exact ⟨⟨rfl, fun _ _ => ⟨rfl, rfl⟩⟩, le_rfl⟩

theorem tracks_decodeStart_new {m : Message}
    (hrefs : ∀ ref, Content.reference ref ∈ cs → m.refs ≠ 0) (R : LuaState) :
    ∃ side : Option Address, (∀ ref, Content.reference ref ∈ cs → side ≠ none) ∧
      (∀ s, side = some s → R.heap.fresh ≤ s) ∧
      Tracks cs (luaGettop (decodeStart m R)) side (fun _ => none) (fun _ => none) 0
        (decodeStart m R) := by
  by_cases hzero : m.refs = 0
  · refine ⟨none, fun ref hmem => (hrefs ref hmem hzero).elim, by simp, ?_⟩
    exact ⟨by simp, by simp, by simp, by simp, by simp⟩
  · obtain ⟨side, hneeded, htracks⟩ := tracks_decodeStart hrefs R
    refine ⟨side, hneeded, ?_, htracks⟩
    intro s hs
    obtain ⟨hpos, hvalue, -⟩ := htracks.side s hs
    have hstart : decodeStart m R = luaCreatetable R := if_pos hzero
    have htop : luaGettop (decodeStart m R) = R.stack.length + 1 := by
      rw [hstart, luaGettop, luaCreatetable, List.length_cons]
      rfl
    rw [LuaState.value_of_pos hpos, htop, hstart, luaCreatetable, List.reverse_cons,
      List.getElem?_append_right (by rw [List.length_reverse]; omega),
      List.length_reverse] at hvalue
    have hsame : R.heap.fresh = s := by simpa using hvalue
    exact hsame.le

theorem Advances.of_decodeStart {h : LuaHeap} {top : ℤ} {side : Option Address} {m : Message}
    {seen' : Visited} {i : ℕ} {ρ : Renaming} {C : Finished} {R R' : LuaState}
    (hside : ∀ s, side = some s → R.heap.fresh ≤ s)
    (hadv : Advances h cs top side (fun _ => False) (fun _ => none) (fun _ => none)
      (decodeStart m R) seen' i ρ C R' (fun b => side = some b)) :
    R.Extends R' ∧
      (∀ a c, C a = some c →
        (if R.heap.fresh ≤ a then R'.heap.closures a else none) = some c) ∧
      ∀ a a', ρ.Rel a a' → R.heap.fresh ≤ a' ∧ ∃ t t', h.tables a = some t ∧
        R'.heap.tables a' = some t' ∧ t.metatable = none ∧ t'.metatable = none ∧
        CopiedAll h (fun a => if R.heap.fresh ≤ a then R'.heap.closures a else none) ρ.Rel
          t.elements t'.elements := by
  obtain ⟨⟨hmetas, hold⟩, hfresh⟩ := decodeStart_extends m R
  have hremade := hadv.remade
  have hfinished : ∀ a c, C a = some c →
      (if R.heap.fresh ≤ a then R'.heap.closures a else none) = some c := by
    intro a c hc
    have hle : R.heap.fresh ≤ a := by
      by_contra hlt
      have hnone := hremade.unfinished a (lt_of_lt_of_le (not_le.mp hlt) hfresh) rfl
      rw [hc] at hnone
      cases hnone
    rw [if_pos hle]
    exact (hadv.keeps a c hc).2
  refine ⟨⟨hadv.metas.trans hmetas, ?_⟩, hfinished, ?_⟩
  · intro a ha
    have hlt := lt_of_lt_of_le ha hfresh
    constructor
    · rw [hremade.kept a hlt fun hs => absurd (hside a hs) (not_le.mpr ha), (hold a ha).1]
    · rw [hremade.keptClosures a hlt not_false, (hold a ha).2]
  · intro a a' ha
    obtain ⟨hle, t, t', ht, ht', hmeta, hmeta', hinside⟩ := hremade.made a a' rfl ha
    exact ⟨hfresh.trans hle, t, t', ht, ht', hmeta, hmeta',
      hinside.mono (fun _ _ hR => hR) hfinished⟩

variable (lib R) in
theorem decodeLoop_copies [lib.StackGrows] {h : LuaHeap}
    (hall : ShipsAll h lib (fun _ => none) 0 vs cs seen)
    (hsmall : sizeofMessage + streamSize cs < 2 ^ 31)
    (hread : ∀ i < cs.length, streamSize (cs.take i) < streamSize cs - 4 * repeats cs) (n : ℕ)
    {fuel : ℕ} (hfuel : cs.length < fuel) :
    ∃ (vs' : List LuaValue) (R' : LuaState),
      decodeLoop lib (messageOf cs n) (luaGettop (decodeStart (messageOf cs n) R)) fuel fuel
        (decodeStart (messageOf cs n) R) msgCursorInit = some R' ∧
      R'.stack = vs'.reverse ++ (decodeStart (messageOf cs n) R).stack ∧ R.Extends R' ∧
      h.CopiesTo vs R'.heap R.heap.fresh vs' := by
  have hcarries := carries_messageOf (n := n) hsmall
  obtain ⟨side, hneeded, hside, htracks⟩ :=
    tracks_decodeStart_new (fun ref hmem => refs_messageOf_ne_zero (n := n) hsmall hmem) R
  obtain ⟨vs', R', ρ, C, hloop, hstack', hcopied, hadv⟩ :=
    decodeLoop_remakes lib hcarries hread (Nat.sub_le _ _) hneeded hall rfl (Nat.zero_add _) hfuel
      (lt_of_le_of_lt hall.length_le hfuel) htracks (C := fun _ => none)
      (fun _ _ hnone => by cases hnone)
  obtain ⟨hextends, hfinished, hmade⟩ := hadv.of_decodeStart hside
  exact ⟨vs', R', hloop, hstack', hextends, ρ.Rel, hadv.tracks.biUnique,
    hcopied.mono (fun _ _ hR => hR) hfinished, hmade⟩

theorem count_messageOf_ne_zero {n : ℕ} (hpos : 0 < n) (hsmall : n < 2 ^ 31) :
    (messageOf cs n).count ≠ 0 := by
  intro hzero
  have hint : (messageOf cs n).count.toInt = n := toInt_ofNat_small hsmall
  rw [hzero] at hint
  change (0 : ℤ) = n at hint
  omega

theorem functionsSurvive_of_ships [lib.StackGrows] (hvs : vs ≠ [])
    (hstack : L.stack = vs.reverse ++ rest)
    (hall : ShipsAll L.heap lib (fun _ => none) 0 vs cs seen)
    (hsmall : sizeofMessage + streamSize cs < 2 ^ 31) (hspared : Spared slack cs) :
    FunctionsSurvive lib mem buf slack L R vs := by
  have hlength := length_le_streamSize cs
  have hle := hall.length_le
  have hread := reads_iff_last.mpr hspared.2
  refine ⟨cs.length + 1, fun fuel hfuel => ?_⟩
  obtain ⟨vs', R', hloop, hstack', hextends, hcopies⟩ :=
    decodeLoop_copies lib R hall hsmall hread vs.length hfuel
  have hdecode := luaDecodemessage_of_loop
    (count_messageOf_ne_zero (List.length_pos_iff.mpr hvs) (by omega)) hloop hstack'
  have hcount : (messageOf cs vs.length).count.toInt = vs.length := toInt_ofNat_small (by omega)
  rw [hcount] at hdecode
  refine ⟨messageOf cs vs.length, { L with stack := rest }, _, vs', ?_, ?_, hdecode, rfl, hextends,
    hcopies⟩
  · exact hall.luaNewmessage hstack hsmall mem buf hspared.1 hfuel
  · rw [hstack, List.drop_left' List.length_reverse]

end RoundTrip

/-- The message of `luaS_createtask`: the function at index 2 and its arguments. -/
def luaSCreatetask (lib : LuaLibrary) (mem : ℕ → Block) (buf : Block) (slack fuel : ℕ)
    (L : LuaState) : Option (Message × LuaState) :=
  match L.value 2 with
  | some (.function _) => luaNewmessage lib mem buf slack fuel L (luaGettop L - 1).toNat
  | _ => none

/-- `task_run` on a task that is ready, up to `lua_resume`: the number of arguments that it gets,
and the new thread. -/
def taskRunReady (lib : LuaLibrary) (fuel : ℕ) (m : Message) (L : LuaState) :
    Option (ℤ × LuaState) :=
  (luaDecodemessage lib m fuel { L with stack := [] }).map fun (count, t) => (count - 1, t)

/-- A task starts with a copy of the function that it was created with, and copies of all its
arguments, if no table is met twice. -/
theorem taskRunReady_createtask (lib : LuaLibrary) [lib.StackGrows] (mem : ℕ → Block) (buf : Block)
    (slack : ℕ) (L R : LuaState) (session : LuaValue) (f : Address) (args : List LuaValue)
    (hstack : L.stack = (.function f :: args).reverse ++ [session])
    (hportable : L.heap.IsPortable lib (.function f :: args))
    (hstream : ∀ cs seen, ShipsAll L.heap lib (fun _ => none) 0 (.function f :: args) cs seen →
      sizeofMessage + streamSize cs < 2 ^ 31 ∧ repeats cs = 0) :
    ∃ N, ∀ fuel ≥ N, ∃ m L' T f' args',
      luaSCreatetask lib mem buf slack fuel L = some (m, L') ∧ L'.stack = [session] ∧
        taskRunReady lib fuel m R = some ((args.length : ℤ), T) ∧
        T.stack = args'.reverse ++ [.function f'] ∧ args'.length = args.length ∧ R.Extends T ∧
        L.heap.CopiesTo (.function f :: args) T.heap R.heap.fresh (.function f' :: args') := by
  obtain ⟨cs, seen, hall⟩ := hportable.shipsAll
  obtain ⟨hsmall, hrepeats⟩ := hstream cs seen hall
  have hlength := length_le_streamSize cs
  have hle := hall.length_le
  rw [List.length_cons] at hle
  have hread : ∀ i < cs.length, streamSize (cs.take i) < streamSize cs - 4 * repeats cs := by
    rw [hrepeats]
    exact fun i hi => streamSize_take_lt hi
  have hfunction : L.value 2 = some (.function f) := by
    rw [LuaState.value_of_pos (by decide), hstack]
    simp
  have hcount : (luaGettop L - 1).toNat = (LuaValue.function f :: args).length := by
    rw [luaGettop, hstack, List.length_append, List.length_reverse, List.length_singleton]
    omega
  refine ⟨cs.length + 1, fun fuel hfuel => ?_⟩
  obtain ⟨vs', T, hloop, hstack', hextends, hcopies⟩ :=
    decodeLoop_copies lib { R with stack := [] } hall hsmall hread (args.length + 1) hfuel
  have hrefs : (messageOf cs (args.length + 1)).refs = 0 := by
    rw [messageOf, hrepeats]
    rfl
  have hstart : decodeStart (messageOf cs (args.length + 1)) { R with stack := [] } =
      { R with stack := [] } := if_neg (not_not.mpr hrefs)
  rw [hstart] at hloop hstack'
  have hdecode := (@luaDecodemessage_eq_some lib _ _ (args.length + 1) rfl
    (Nat.succ_pos _) (by omega) hrefs fuel).mpr ⟨rfl, hloop⟩
  obtain ⟨R', hR', hcopied, htables⟩ := hcopies
  cases hcopied with
  | @cons _ v' _ args' hf hargs =>
    obtain ⟨f', rfl⟩ : ∃ f', v' = .function f' := by
      cases hf with
      | scalar hc => cases hc
      | @function _ f' => exact ⟨f', rfl⟩
    refine ⟨messageOf cs (args.length + 1), { L with stack := [session] }, T, f', args', ?_, rfl,
      ?_, ?_, hargs.length_eq, hextends, R', hR', .cons hf hargs, htables⟩
    · simp only [luaSCreatetask, hfunction, hcount]
      exact hall.luaNewmessage hstack hsmall mem buf (by rw [hrepeats]; exact Nat.zero_le _) hfuel
    · rw [taskRunReady, hdecode, Option.map_some]
      push_cast
      rw [add_sub_cancel_right]
    · rw [hstack', List.reverse_cons, List.append_nil]

section Closure

def closureHeap : LuaHeap := emptyState.heap.load ⟨[], [.boolean true]⟩

def closureLibrary : LuaLibrary := { loopLibrary with chunk := fun _ => some 1 }

instance : closureLibrary.StackGrows := ⟨fun _ _ => rfl⟩

theorem isPortable_closureHeap :
    closureHeap.IsPortable closureLibrary [.function 0, .boolean true] := by
  have hcontains : ∀ v, closureHeap.Contains [.function 0, .boolean true] v →
      v = .function 0 ∨ v = .boolean true := by
    intro v ⟨r, hr, hpath⟩
    induction hpath with
    | refl => simpa using hr
    | tail _ hinside ih =>
      rcases ih with rfl | rfl
      · cases hinside with
        | upvalue hc hmem =>
          cases hc
          exact .inr (List.mem_singleton.mp hmem)
      · cases hinside
  have hfunction : ∀ a, closureHeap.Contains [.function 0, .boolean true] (.function a) →
      a = 0 := by
    intro a ha
    rcases hcontains _ ha with heq | heq
    · exact LuaValue.function.inj heq
    · cases heq
  have htable : ∀ a, ¬ closureHeap.Contains [.function 0, .boolean true] (.table a) := by
    intro a ha
    rcases hcontains _ ha with heq | heq <;> cases heq
  refine ⟨⟨?_, fun a ha => (htable a ha).elim, ?_, ?_⟩, ?_, fun a t ha => (htable a ha).elim,
    ?_, ?_⟩
  · apply Set.Finite.subset (Set.toFinite {.function 0, .boolean true})
    exact fun v hv => hcontains v hv
  · intro a ha
    rw [hfunction a ha]
    exact ⟨_, rfl⟩
  · intro a ha
    rcases hcontains _ ha with heq | heq <;> cases heq
  · intro v hv
    rcases hcontains v hv with rfl | rfl <;> rfl
  · intro a ha hcycle
    rw [hfunction a ha] at hcycle
    obtain ⟨b, ⟨c, hc, hmem⟩, -⟩ := Relation.TransGen.head'_iff.mp hcycle
    cases hc
    cases List.mem_singleton.mp hmem
  · intro a c ha hc
    rw [hfunction a ha] at hc
    cases hc
    rfl

theorem ships_closureHeap {cs : List Content} {seen : Visited}
    (hall : ShipsAll closureHeap closureLibrary (fun _ => none) 0 [.function 0, .boolean true] cs
      seen) : cs = [.function 1 [], .boolean true, .boolean true] := by
  cases hall with
  | cons hf hargs =>
    cases hf with
    | scalar hc => cases hc
    | function hc _ hupvalues =>
      cases hc
      cases hupvalues with
      | cons hu hnil =>
        cases hnil
        cases hu with
        | scalar hc' =>
          cases hc'
          cases hargs with
          | cons ha hnil =>
            cases hnil
            cases ha with
            | scalar hc'' =>
              cases hc''
              rfl

/-- A session's task is created with the function and one argument. -/
theorem taskRunReady_createtask_closure :
    ∃ N, ∀ fuel ≥ N, ∃ m L' T f' args',
      luaSCreatetask closureLibrary (fun _ _ => blankValue) (fun _ => blankValue) 0 fuel
        ⟨[.boolean true, .function 0, .userdata 0], closureHeap, []⟩ = some (m, L') ∧
        L'.stack = [.userdata 0] ∧
        taskRunReady closureLibrary fuel m emptyState =
          some (([LuaValue.boolean true].length : ℤ), T) ∧
        T.stack = args'.reverse ++ [.function f'] ∧ args'.length = [LuaValue.boolean true].length ∧
        emptyState.Extends T ∧
        closureHeap.CopiesTo [.function 0, .boolean true] T.heap emptyState.heap.fresh
          (.function f' :: args') := by
  refine taskRunReady_createtask closureLibrary (fun _ _ => blankValue) (fun _ => blankValue) 0
    ⟨[.boolean true, .function 0, .userdata 0], closureHeap, []⟩ emptyState (.userdata 0) 0
    [.boolean true] rfl isPortable_closureHeap ?_
  intro cs seen hall
  rw [ships_closureHeap hall]
  decide

end Closure

end Casting
