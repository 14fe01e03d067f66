import Mathlib.Data.UInt
import Mathlib.Tactic.Ring

/-!
# Byte encoders, byte decoders and their round trips

An encoder appends bytes and may refuse; a decoder consumes bytes from a
reader that also knows how many bytes its source has left. `EncodesWhen` says
what an encoder writes and exactly when it refuses, `Decodes` says which bytes
a decoder turns into which value. Both compose along `bind` and along loops.
-/

namespace ByteCodec

/-! ## Little-endian numbers -/

def leBytes : ℕ → ℕ → List UInt8
  | 0, _ => []
  | width + 1, value => UInt8.ofNat (value % 256) :: leBytes width (value / 256)

def ofLeBytes : List UInt8 → ℕ
  | [] => 0
  | byte :: rest => byte.toNat + 256 * ofLeBytes rest

@[simp] theorem length_leBytes (width value : ℕ) : (leBytes width value).length = width := by
  induction width generalizing value with
  | zero => rfl
  | succ width ih => simp [leBytes, ih]

theorem ofLeBytes_leBytes {width value : ℕ} (h : value < 256 ^ width) :
    ofLeBytes (leBytes width value) = value := by
  induction width generalizing value with
  | zero => simp_all [leBytes, ofLeBytes]
  | succ width ih =>
      have hrest : value / 256 < 256 ^ width :=
        Nat.div_lt_of_lt_mul (by rwa [pow_succ, mul_comm] at h)
      have hbyte : (UInt8.ofNat (value % 256)).toNat = value % 256 :=
        UInt8.toNat_ofNat_of_lt' (Nat.mod_lt _ (by decide))
      rw [leBytes, ofLeBytes, ih hrest, hbyte]
      omega

theorem ofLeBytes_lt (bytes : List UInt8) : ofLeBytes bytes < 256 ^ bytes.length := by
  induction bytes with
  | nil => simp [ofLeBytes]
  | cons byte rest ih =>
      have hbyte : byte.toNat < 256 := byte.toNat_lt
      rw [ofLeBytes, List.length_cons, pow_succ]
      omega

/-! ## Encoders -/

/-- An encoder extends the bytes written so far, or refuses. -/
abbrev Encoder (ε α : Type) := StateT (List UInt8) (Except ε) α

variable {ε α β : Type}

def writeAll (bytes : List UInt8) : Encoder ε Unit := modify (· ++ bytes)

/-- The encoder writes `bytes` when `ready` holds and refuses otherwise. -/
structure EncodesWhen (ready : Prop) (e : Encoder ε Unit) (bytes : List UInt8) : Prop where
  writes : ready → ∀ written, e.run written = .ok ((), written ++ bytes)
  refuses : ¬ ready → ∀ written, ∃ error, e.run written = .error error

theorem encodesWhen_writeAll (bytes : List UInt8) :
    EncodesWhen True (writeAll bytes : Encoder ε Unit) bytes :=
  ⟨fun _ _ ↦ rfl, fun h ↦ (h trivial).elim⟩

theorem encodesWhen_pure : EncodesWhen True (pure () : Encoder ε Unit) [] :=
  ⟨fun _ written ↦ by rw [List.append_nil]; rfl, fun h ↦ (h trivial).elim⟩

theorem EncodesWhen.mono {p q : Prop} {e : Encoder ε Unit} {bytes : List UInt8}
    (h : EncodesWhen p e bytes) (hpq : p ↔ q) : EncodesWhen q e bytes :=
  ⟨fun hq ↦ h.writes (hpq.mpr hq), fun hq ↦ h.refuses fun hp ↦ hq (hpq.mp hp)⟩

theorem EncodesWhen.seq {p q : Prop} {e₁ e₂ : Encoder ε Unit} {b₁ b₂ : List UInt8}
    (h₁ : EncodesWhen p e₁ b₁) (h₂ : EncodesWhen q e₂ b₂) :
    EncodesWhen (p ∧ q) (e₁ >>= fun _ ↦ e₂) (b₁ ++ b₂) where
  writes := by
    rintro ⟨hp, hq⟩ written
    rw [StateT.run_bind, h₁.writes hp]
    rw [← List.append_assoc]
    exact h₂.writes hq (written ++ b₁)
  refuses := by
    intro hpq written
    by_cases hp : p
    · obtain ⟨error, herror⟩ := h₂.refuses (fun hq ↦ hpq ⟨hp, hq⟩) (written ++ b₁)
      exact ⟨error, by rw [StateT.run_bind, h₁.writes hp]; exact herror⟩
    · obtain ⟨error, herror⟩ := h₁.refuses hp written
      exact ⟨error, by rw [StateT.run_bind, herror]; rfl⟩

/-- An encoder that finished was ready, and wrote exactly its bytes. -/
theorem EncodesWhen.of_run_ok {p : Prop} {e : Encoder ε Unit} {bytes written result : List UInt8}
    (h : EncodesWhen p e bytes) (hrun : e.run written = .ok ((), result)) :
    p ∧ result = written ++ bytes := by
  by_cases hp : p
  · rw [h.writes hp] at hrun
    exact ⟨hp, (congrArg Prod.snd (Except.ok.inj hrun)).symm⟩
  · obtain ⟨error, herror⟩ := h.refuses hp written
    rw [herror] at hrun
    cases hrun

/-! ## Decoders -/

/-- The unread bytes, and the number of bytes the source promised to hold. -/
structure ByteReader where
  inner : List UInt8
  remaining : ℕ

namespace ByteReader

/-- A reader over a source whose promised length is its length. -/
def ofBytes (bytes : List UInt8) : ByteReader := ⟨bytes, bytes.length⟩

@[simp] theorem remaining_ofBytes (bytes : List UInt8) : (ofBytes bytes).remaining = bytes.length := rfl

end ByteReader

abbrev Decoder (ε α : Type) := StateT ByteReader (Except ε) α

/-- The decoder turns `bytes` into `a`, whatever follows them. -/
def Decodes (d : Decoder ε α) (bytes : List UInt8) (a : α) : Prop :=
  ∀ rest, d.run (.ofBytes (bytes ++ rest)) = .ok (a, .ofBytes rest)

theorem decodes_pure (a : α) : Decodes (pure a : Decoder ε α) [] a := fun _ ↦ rfl

theorem Decodes.bind {d : Decoder ε α} {f : α → Decoder ε β} {b₁ b₂ : List UInt8} {a : α} {b : β}
    (hd : Decodes d b₁ a) (hf : Decodes (f a) b₂ b) : Decodes (d >>= f) (b₁ ++ b₂) b := by
  intro rest
  rw [StateT.run_bind, List.append_assoc, hd (b₂ ++ rest)]
  exact hf rest

/-- A last decoder, after which the value is put together. -/
theorem Decodes.last {d : Decoder ε α} {bytes : List UInt8} {a : α} {f : α → Decoder ε β} {b : β}
    (hd : Decodes d bytes a) (hf : f a = pure b) : Decodes (d >>= f) bytes b := by
  have hpure : Decodes (f a) [] b := hf ▸ decodes_pure b
  have h := hd.bind hpure
  rwa [List.append_nil] at h

/-- A test that passes on what is left consumes nothing. -/
theorem Decodes.guard {check : Decoder ε Unit} {d : Decoder ε α} {bytes : List UInt8} {a : α}
    (hcheck : ∀ rest, check.run (.ofBytes (bytes ++ rest)) = .ok ((), .ofBytes (bytes ++ rest)))
    (hd : Decodes d bytes a) : Decodes (check >>= fun _ ↦ d) bytes a := by
  intro rest
  rw [StateT.run_bind, hcheck rest]
  exact hd rest

/-- Run a decoder a given number of times and collect the values. -/
def readMany (d : Decoder ε α) : ℕ → Decoder ε (List α)
  | 0 => pure []
  | count + 1 => do
      let a ← d
      let rest ← readMany d count
      pure (a :: rest)

/-! ## Encoders and decoders of the same bytes -/

/-- The encoder, when ready, writes at least `width` bytes, and the decoder
turns exactly these bytes into `a`. -/
def RoundTrips (ready : Prop) (width : ℕ) (e : Encoder ε Unit) (d : Decoder ε α) (a : α) : Prop :=
  ∃ bytes, width ≤ bytes.length ∧ EncodesWhen ready e bytes ∧ (ready → Decodes d bytes a)

theorem RoundTrips.mono {p q : Prop} {v w : ℕ} {e : Encoder ε Unit} {d : Decoder ε α} {a : α}
    (h : RoundTrips p w e d a) (hpq : p ↔ q) (hvw : v ≤ w) : RoundTrips q v e d a := by
  obtain ⟨bytes, hwidth, hencodes, hdecodes⟩ := h
  exact ⟨bytes, hvw.trans hwidth, hencodes.mono hpq, fun hq ↦ hdecodes (hpq.mpr hq)⟩

theorem roundTrips_pure (a : α) : RoundTrips True 0 (pure () : Encoder ε Unit) (pure a) a :=
  ⟨[], Nat.zero_le _, encodesWhen_pure, fun _ ↦ decodes_pure a⟩

theorem RoundTrips.seq {p q : Prop} {v w : ℕ} {e₁ e₂ : Encoder ε Unit} {d : Decoder ε α}
    {f : α → Decoder ε β} {a : α} {b : β} (h₁ : RoundTrips p v e₁ d a)
    (h₂ : RoundTrips q (w - v) e₂ (f a) b) :
    RoundTrips (p ∧ q) w (e₁ >>= fun _ ↦ e₂) (d >>= f) b := by
  obtain ⟨b₁, hwidth₁, hencodes₁, hdecodes₁⟩ := h₁
  obtain ⟨b₂, hwidth₂, hencodes₂, hdecodes₂⟩ := h₂
  refine ⟨b₁ ++ b₂, ?_, hencodes₁.seq hencodes₂, fun h ↦ (hdecodes₁ h.1).bind (hdecodes₂ h.2)⟩
  rw [List.length_append]
  omega

/-- `RoundTrips.seq` after an encoder that never refuses. -/
theorem RoundTrips.append {q : Prop} {v w : ℕ} {e₁ e₂ : Encoder ε Unit} {d : Decoder ε α}
    {f : α → Decoder ε β} {a : α} {b : β} (h₁ : RoundTrips True v e₁ d a)
    (h₂ : RoundTrips q (w - v) e₂ (f a) b) :
    RoundTrips q w (e₁ >>= fun _ ↦ e₂) (d >>= f) b :=
  (h₁.seq h₂).mono (iff_of_eq (true_and q)) (Nat.le_refl _)

theorem writeAll_append (b₁ b₂ : List UInt8) :
    (writeAll (b₁ ++ b₂) : Encoder ε Unit) = (writeAll b₁ >>= fun _ ↦ writeAll b₂) := by
  funext written
  have hassoc : written ++ (b₁ ++ b₂) = written ++ b₁ ++ b₂ := (List.append_assoc ..).symm
  exact congrArg (fun result ↦ Except.ok ((), result)) hassoc

/-- `RoundTrips.append` for fields that go through a buffer. -/
theorem RoundTrips.appendBytes {q : Prop} {v w : ℕ} {b₁ b₂ : List UInt8} {d : Decoder ε α}
    {f : α → Decoder ε β} {a : α} {b : β} (h₁ : RoundTrips True v (writeAll b₁) d a)
    (h₂ : RoundTrips q (w - v) (writeAll b₂) (f a) b) :
    RoundTrips q w (writeAll (b₁ ++ b₂)) (d >>= f) b := by
  rw [writeAll_append]
  exact h₁.append h₂

/-- The last field, from which the value is put together. -/
theorem RoundTrips.last {p : Prop} {w : ℕ} {e : Encoder ε Unit} {d : Decoder ε α} {a : α}
    {f : α → Decoder ε β} {b : β} (h : RoundTrips p w e d a) (hf : f a = pure b) :
    RoundTrips p w e (d >>= f) b := by
  obtain ⟨bytes, hwidth, hencodes, hdecodes⟩ := h
  exact ⟨bytes, hwidth, hencodes, fun hp ↦ (hdecodes hp).last hf⟩

/-- A test on the reader that passes when `width` bytes are left. -/
theorem RoundTrips.guard {p : Prop} {w : ℕ} {e : Encoder ε Unit} {d : Decoder ε α} {a : α}
    {check : Decoder ε Unit} (h : RoundTrips p w e d a)
    (hcheck : ∀ reader : ByteReader, w ≤ reader.remaining → check.run reader = .ok ((), reader)) :
    RoundTrips p w e (check >>= fun _ ↦ d) a := by
  obtain ⟨bytes, hwidth, hencodes, hdecodes⟩ := h
  refine ⟨bytes, hwidth, hencodes, fun hp ↦ (hdecodes hp).guard fun rest ↦ hcheck _ ?_⟩
  rw [ByteReader.remaining_ofBytes, List.length_append]
  exact hwidth.trans (Nat.le_add_right _ _)

/-- A decoded value that a pure decoder accepts. -/
theorem RoundTrips.lift {p : Prop} {w : ℕ} {e : Encoder ε Unit} {accepted : Except ε α}
    {f : α → Decoder ε β} {a : α} {b : β} (haccepted : accepted = .ok a)
    (h : RoundTrips p w e (f a) b) :
    RoundTrips p w e ((liftM accepted : Decoder ε α) >>= f) b := by
  subst haccepted
  exact h

/-- A loop of encoders against a counted loop of decoders. -/
theorem roundTrips_forM {p : α → Prop} {w : ℕ} {e : α → Encoder ε Unit} {d : Decoder ε α}
    (l : List α) (h : ∀ a ∈ l, RoundTrips (p a) w (e a) d a) :
    RoundTrips (∀ a ∈ l, p a) (l.length * w) (l.forM e) (readMany d l.length) l := by
  induction l with
  | nil => exact (roundTrips_pure []).mono (by simp) (by simp)
  | cons a rest ih =>
      have hhead := h a List.mem_cons_self
      have htail := ih fun b hb ↦ h b (List.mem_cons_of_mem a hb)
      have htail' := htail.last (f := fun rest ↦ pure (a :: rest)) rfl
      have hwidth : (rest.length + 1) * w - w ≤ rest.length * w := by
        rw [Nat.add_mul]
        omega
      exact (hhead.seq (htail'.mono Iff.rfl hwidth)).mono (by simp) (Nat.le_refl _)

/-- What a finished encoder added to an empty file is read back whole. -/
theorem RoundTrips.read_back {p : Prop} {w : ℕ} {e : Encoder ε Unit} {d : Decoder ε α} {a : α}
    {bytes : List UInt8} (h : RoundTrips p w e d a) (hrun : e.run [] = .ok ((), bytes)) :
    d.run (.ofBytes bytes) = .ok (a, .ofBytes []) := by
  obtain ⟨b, _, hencodes, hdecodes⟩ := h
  obtain ⟨hp, hbytes⟩ := hencodes.of_run_ok hrun
  have hread := hdecodes hp []
  rwa [List.append_nil, show b = bytes from hbytes.symm] at hread

theorem RoundTrips.run_ok {p : Prop} {w : ℕ} {e : Encoder ε Unit} {d : Decoder ε α} {a : α}
    (h : RoundTrips p w e d a) (hp : p) : ∃ bytes, e.run [] = .ok ((), bytes) := by
  obtain ⟨b, _, hencodes, _⟩ := h
  exact ⟨_, hencodes.writes hp []⟩

/-! ## How many bytes an encoder adds -/

/-- If the encoder finishes, it has added `count` bytes. -/
def Adds (e : Encoder ε Unit) (count : ℕ) : Prop :=
  ∀ written result, e.run written = .ok ((), result) → result.length = written.length + count

theorem adds_writeAll {bytes : List UInt8} {count : ℕ} (h : bytes.length = count) :
    Adds (writeAll bytes : Encoder ε Unit) count := by
  rintro written result hrun
  have hresult : written ++ bytes = result := congrArg Prod.snd (Except.ok.inj hrun)
  simp [← hresult, h]

theorem Adds.of_eq {e : Encoder ε Unit} {m n : ℕ} (h : Adds e m) (hmn : m = n) : Adds e n :=
  hmn ▸ h

theorem adds_throw (error : ε) (count : ℕ) : Adds (throw error : Encoder ε Unit) count := by
  rintro written result ⟨⟩

theorem Adds.seq {e₁ e₂ : Encoder ε Unit} {m n : ℕ} (h₁ : Adds e₁ m) (h₂ : Adds e₂ n) :
    Adds (e₁ >>= fun _ ↦ e₂) (m + n) := by
  intro written result hrun
  rw [StateT.run_bind] at hrun
  cases hfirst : e₁.run written with
  | error error =>
      rw [hfirst] at hrun
      cases hrun
  | ok middle =>
      rw [hfirst] at hrun
      have hmiddle := h₁ written middle.2 hfirst
      have hresult := h₂ middle.2 result hrun
      omega

theorem adds_forM {e : α → Encoder ε Unit} {size : α → ℕ} (l : List α)
    (h : ∀ a ∈ l, Adds (e a) (size a)) : Adds (l.forM e) (l.map size).sum := by
  induction l with
  | nil =>
      rintro written result ⟨⟩
      rfl
  | cons a rest ih =>
      have htail := ih fun b hb ↦ h b (List.mem_cons_of_mem a hb)
      exact (h a List.mem_cons_self).seq htail

/-! ## What a decoder can return -/

/-- Whatever bytes it reads, the decoder only returns values with `P`. -/
def Yields (d : Decoder ε α) (P : α → Prop) : Prop :=
  ∀ reader result, d.run reader = .ok result → P result.1

theorem yields_any (d : Decoder ε α) : Yields d fun _ ↦ True := fun _ _ _ ↦ trivial

theorem yields_pure {P : α → Prop} {a : α} (h : P a) : Yields (pure a : Decoder ε α) P := by
  rintro reader result ⟨⟩
  exact h

theorem yields_throw (error : ε) (P : α → Prop) : Yields (throw error : Decoder ε α) P := by
  rintro reader result ⟨⟩

theorem Yields.bind {d : Decoder ε α} {f : α → Decoder ε β} {P : α → Prop} {Q : β → Prop}
    (hd : Yields d P) (hf : ∀ a, P a → Yields (f a) Q) : Yields (d >>= f) Q := by
  intro reader result hrun
  rw [StateT.run_bind] at hrun
  cases hfirst : d.run reader with
  | error error =>
      rw [hfirst] at hrun
      cases hrun
  | ok middle =>
      rw [hfirst] at hrun
      exact hf middle.1 (hd reader middle hfirst) middle.2 result hrun

/-- `Yields.bind` after a value about which nothing need be known. -/
theorem Yields.after {d : Decoder ε α} {f : α → Decoder ε β} {Q : β → Prop}
    (hf : ∀ a, Yields (f a) Q) : Yields (d >>= f) Q :=
  (yields_any d).bind fun a _ ↦ hf a

theorem Yields.readMany {d : Decoder ε α} {P : α → Prop} (hd : Yields d P) (count : ℕ) :
    Yields (readMany d count) fun l ↦ ∀ a ∈ l, P a := by
  induction count with
  | zero => exact yields_pure (by simp)
  | succ count ih =>
      refine hd.bind fun a ha ↦ ih.bind fun rest hrest ↦ yields_pure ?_
      intro b hb
      obtain rfl | hb := List.mem_cons.mp hb
      · exact ha
      · exact hrest b hb

/-! ## Decoding part of the bytes -/

/-- After the bytes that `e`, when ready, writes, the decoder `d` goes on as `d'`. -/
def Continues (ready : Prop) (e : Encoder ε Unit) (d d' : Decoder ε α) : Prop :=
  ∃ bytes, EncodesWhen ready e bytes ∧
    (ready → ∀ rest, d.run (.ofBytes (bytes ++ rest)) = d'.run (.ofBytes rest))

theorem Continues.mono {p q : Prop} {e : Encoder ε Unit} {d d' : Decoder ε α}
    (h : Continues p e d d') (hpq : p ↔ q) : Continues q e d d' := by
  obtain ⟨bytes, hencodes, hruns⟩ := h
  exact ⟨bytes, hencodes.mono hpq, fun hq ↦ hruns (hpq.mpr hq)⟩

theorem RoundTrips.continues {p : Prop} {w : ℕ} {e : Encoder ε Unit} {d : Decoder ε α} {a : α}
    (h : RoundTrips p w e d a) (f : α → Decoder ε β) : Continues p e (d >>= f) (f a) := by
  obtain ⟨bytes, _, hencodes, hdecodes⟩ := h
  refine ⟨bytes, hencodes, fun hp rest ↦ ?_⟩
  rw [StateT.run_bind, hdecodes hp rest]
  rfl

theorem Continues.trans {p q : Prop} {e₁ e₂ : Encoder ε Unit} {d d' d'' : Decoder ε α}
    (h₁ : Continues p e₁ d d') (h₂ : Continues q e₂ d' d'') :
    Continues (p ∧ q) (e₁ >>= fun _ ↦ e₂) d d'' := by
  obtain ⟨b₁, hencodes₁, hruns₁⟩ := h₁
  obtain ⟨b₂, hencodes₂, hruns₂⟩ := h₂
  refine ⟨b₁ ++ b₂, hencodes₁.seq hencodes₂, fun h rest ↦ ?_⟩
  rw [List.append_assoc, hruns₁ h.1, hruns₂ h.2]

/-- A written file splits where `d` goes on as `d'`: what is left there is what
the second encoder wrote, and its own decoder reads it whole. -/
theorem Continues.split_run {p q : Prop} {w : ℕ} {e₁ e₂ : Encoder ε Unit} {d d' : Decoder ε α}
    {k : Decoder ε β} {b : β} {bytes : List UInt8} (h₁ : Continues p e₁ d d')
    (h₂ : RoundTrips q w e₂ k b) (hrun : (e₁ >>= fun _ ↦ e₂).run [] = .ok ((), bytes)) :
    ∃ rest, d.run (.ofBytes bytes) = d'.run (.ofBytes rest) ∧ e₂.run [] = .ok ((), rest) ∧
      k.run (.ofBytes rest) = .ok (b, .ofBytes []) := by
  obtain ⟨b₁, hencodes₁, hruns₁⟩ := h₁
  have hread : ∀ rest, e₂.run [] = .ok ((), rest) →
      k.run (.ofBytes rest) = .ok (b, .ofBytes []) := fun rest ↦ h₂.read_back
  obtain ⟨b₂, _, hencodes₂, _⟩ := h₂
  obtain ⟨⟨hp, hq⟩, hbytes⟩ := (hencodes₁.seq hencodes₂).of_run_ok hrun
  have hsecond : e₂.run [] = .ok ((), b₂) := hencodes₂.writes hq []
  refine ⟨b₂, ?_, hsecond, hread b₂ hsecond⟩
  rw [hbytes]
  exact hruns₁ hp b₂

end ByteCodec
