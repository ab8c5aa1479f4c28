import ReflexLlm.Lib.LittleEndian

/-! Reading a file through a position, as `fread` and `fseek` of the C library do. A read at
the end of the file is short and leaves the rest of its target as it was; a seek takes a
signed distance, and one that leaves the range of offsets changes nothing. -/

namespace ByteStream

open LittleEndian

/-- An open file, the largest offset of its file system, and what the target of read `k`
holds before that read. -/
structure Stream where
  bytes : List UInt8
  maxOffset : ℕ
  old : ℕ → ℕ → UInt8
  fits : bytes.length ≤ maxOffset
  offsets : maxOffset + 0x1000 ≤ 0x8000000000000000

/-- A file on a file system that it fills, read into zeros. -/
def Stream.full (bytes : List UInt8) (h : bytes.length + 0x1000 ≤ 0x8000000000000000) : Stream :=
  ⟨bytes, bytes.length, fun _ _ => 0, le_rfl, h⟩

/-- The state of a reader: its position, the reads so far, whether one of them was short,
and the loop iterations that it has counted. -/
structure Cursor where
  pos : ℕ
  reads : ℕ
  short : Bool
  steps : ℕ
deriving DecidableEq, Repr

/-- The start of a file. -/
def Cursor.start : Cursor := ⟨0, 0, false, 0⟩

abbrev Reader := StateM Cursor

namespace Reader

variable (f : Stream)

/-- `fread` of `n` bytes into a target that holds `before`. -/
def fread (n : ℕ) (before : ℕ → UInt8) : Reader (List UInt8) := fun c =>
  let got := (f.bytes.drop c.pos).take n
  (got ++ (List.range' got.length (n - got.length)).map before,
    { c with
      pos := c.pos + got.length
      reads := c.reads + 1
      short := c.short || decide (got.length < n) })

/-- Into a variable that is not initialised. -/
def raw (n : ℕ) : Reader (List UInt8) := fun c => fread f n (f.old c.reads) c

/-- Into a buffer of zeros. -/
def zeroed (n : ℕ) : Reader (List UInt8) := fread f n fun _ => 0

def u32 : Reader UInt32 := do
  let bytes ← raw f 4
  return toU32 bytes

def u64 : Reader UInt64 := do
  let bytes ← raw f 8
  return toU64 bytes

/-- `fseek(f, off, SEEK_CUR)`. -/
def seek (off : UInt64) : Reader Unit := fun c =>
  let target : ℤ := c.pos + (off.toNat : ℤ).bmod 0x10000000000000000
  if 0 ≤ target ∧ target ≤ f.maxOffset then ((), { c with pos := target.toNat }) else ((), c)

/-- Counts a loop iteration. -/
def tick : Reader Unit := fun c => ((), { c with steps := c.steps + 1 })

/-- `n` iterations of a loop over a state. -/
def loop {σ : Type} : ℕ → (σ → Reader σ) → σ → Reader σ
  | 0, _, s => return s
  | n + 1, body, s => do
      tick
      let s ← body s
      loop n body s

/-! ### What a reader takes from the file -/

/-- Where the file goes on with `a`, the reader takes exactly that and answers `x`, after
`k` iterations of loops and without a short read. -/
def Takes {α : Type} (r : Reader α) (a : List UInt8) (x : α) (k : ℕ) : Prop :=
  ∀ c b, f.bytes.drop c.pos = a ++ b →
    ∃ reads, r c = (x, { c with pos := c.pos + a.length, reads := reads, steps := c.steps + k })

variable {f} {α β σ : Type}

theorem Takes.of_eq {r : Reader α} {a a' : List UInt8} {x x' : α} {k k' : ℕ}
    (h : Takes f r a x k) (ha : a = a') (hx : x = x') (hk : k = k') : Takes f r a' x' k' := by
  subst ha hx hk
  exact h

theorem Takes.pure (x : α) : Takes f (pure x : Reader α) [] x 0 := fun c _ _ => ⟨c.reads, rfl⟩

theorem drop_of_append {xs a b : List UInt8} {pos : ℕ} (h : xs.drop pos = a ++ b) :
    xs.drop (pos + a.length) = b := by
  rw [← List.drop_drop, h, List.drop_left]

theorem Takes.bind {r : Reader α} {g : α → Reader β} {a b : List UInt8} {x : α} {y : β} {k l : ℕ}
    (hr : Takes f r a x k) (hg : Takes f (g x) b y l) : Takes f (r >>= g) (a ++ b) y (k + l) := by
  intro c rest h
  rw [List.append_assoc] at h
  obtain ⟨reads, hfirst⟩ := hr c _ h
  obtain ⟨reads', hsecond⟩ := hg
    { c with pos := c.pos + a.length, reads := reads, steps := c.steps + k } rest
    (drop_of_append h)
  refine ⟨reads', ?_⟩
  have hrun : (r >>= g) c = g (r c).1 (r c).2 := rfl
  rw [hrun, hfirst, hsecond, List.length_append]
  simp only [Nat.add_assoc]

/-- A first step without loops. -/
theorem Takes.next {r : Reader α} {g : α → Reader β} {a b : List UInt8} {x : α} {y : β} {l : ℕ}
    (hr : Takes f r a x 0) (hg : Takes f (g x) b y l) : Takes f (r >>= g) (a ++ b) y l :=
  (hr.bind hg).of_eq rfl rfl (Nat.zero_add l)

/-- A last step that takes nothing. -/
theorem Takes.last {r : Reader α} {g : α → Reader β} {a : List UInt8} {x : α} {y : β} {k : ℕ}
    (hr : Takes f r a x k) (hg : Takes f (g x) [] y 0) : Takes f (r >>= g) a y k :=
  (hr.bind hg).of_eq (List.append_nil a) rfl (Nat.add_zero k)

theorem takes_fread (a : List UInt8) (before : ℕ → UInt8) :
    Takes f (fread f a.length before) a a 0 := by
  intro c b h
  refine ⟨c.reads + 1, ?_⟩
  unfold fread
  simp [h]

theorem takes_raw {n : ℕ} {a : List UInt8} (h : a.length = n) : Takes f (raw f n) a a 0 := by
  subst h
  exact fun c => takes_fread a (f.old c.reads) c

theorem takes_zeroed {n : ℕ} {a : List UInt8} (h : a.length = n) : Takes f (zeroed f n) a a 0 := by
  subst h
  exact takes_fread a _

theorem takes_u32 (v : UInt32) : Takes f (u32 f) (LittleEndian.u32 v) v 0 := by
  have hword : Takes f (u32 f) (LittleEndian.u32 v) (toU32 (LittleEndian.u32 v)) 0 :=
    (takes_raw (u32_length v)).last (.pure _)
  rwa [toU32_u32] at hword

theorem takes_u64 (v : UInt64) : Takes f (u64 f) (LittleEndian.u64 v) v 0 := by
  have hword : Takes f (u64 f) (LittleEndian.u64 v) (toU64 (LittleEndian.u64 v)) 0 :=
    (takes_raw (u64_length v)).last (.pure _)
  rwa [toU64_u64] at hword

theorem length_le_of_drop {a b : List UInt8} {pos : ℕ} (h : f.bytes.drop pos = a ++ b) :
    a = [] ∨ pos + a.length ≤ f.bytes.length := by
  have hlen := congrArg List.length h
  rw [List.length_drop, List.length_append] at hlen
  rcases a with _ | ⟨x, a⟩
  · exact .inl rfl
  · rw [List.length_cons] at hlen ⊢
    omega

theorem takes_seek {off : UInt64} {a : List UInt8} (h : off.toNat = a.length) :
    Takes f (seek f off) a () 0 := by
  intro c b hrest
  refine ⟨c.reads, ?_⟩
  have hfits := f.fits
  have hoffsets := f.offsets
  unfold seek
  rcases length_le_of_drop hrest with rfl | hle
  · rw [h]
    simp only [List.length_nil, Nat.cast_zero, Int.zero_bmod, add_zero, Int.toNat_natCast, ite_self]
  · have hsigned : (off.toNat : ℤ).bmod 0x10000000000000000 = a.length := by
      rw [h]
      exact Int.bmod_eq_of_le (by omega) (by omega)
    simp only [hsigned]
    rw [if_pos (by omega)]
    congr 2

theorem takes_tick : Takes f tick [] () 1 := fun c _ _ => ⟨c.reads, rfl⟩

/-- A loop over encoded items takes the items one after the other. Its state is seen through
`emb`, outside of which the body may do anything. -/
theorem takes_loop_through {ι τ : Type} (emb : σ → τ) {body : τ → Reader τ} (enc : ι → List UInt8)
    (step : σ → ι → σ) (cost : ι → ℕ) {items : List ι}
    (h : ∀ s, ∀ x ∈ items, Takes f (body (emb s)) (enc x) (emb (step s x)) (cost x)) (s : σ) :
    Takes f (loop items.length body (emb s)) (items.flatMap enc) (emb (items.foldl step s))
      (items.length + (items.map cost).sum) := by
  induction items generalizing s with
  | nil => exact .pure (emb s)
  | cons x items ih =>
    have hrest := ih (fun s y hy => h s y (List.mem_cons_of_mem x hy)) (step s x)
    have hitem := (h s x List.mem_cons_self).bind hrest
    have hall := Takes.bind (g := fun _ => body (emb s) >>= loop items.length body) takes_tick hitem
    have hcost : (x :: items).length + ((x :: items).map cost).sum =
        1 + (cost x + (items.length + (items.map cost).sum)) := by
      rw [List.length_cons, List.map_cons, List.sum_cons]
      omega
    rw [hcost]
    exact hall

theorem takes_loop {ι : Type} {body : σ → Reader σ} (enc : ι → List UInt8) (step : σ → ι → σ)
    (cost : ι → ℕ) {items : List ι}
    (h : ∀ s, ∀ x ∈ items, Takes f (body s) (enc x) (step s x) (cost x)) (s : σ) :
    Takes f (loop items.length body s) (items.flatMap enc) (items.foldl step s)
      (items.length + (items.map cost).sum) :=
  takes_loop_through id enc step cost h s

/-- The same where an item costs no iterations of its own. -/
theorem takes_loop_flat {ι : Type} {body : σ → Reader σ} (enc : ι → List UInt8) (step : σ → ι → σ)
    {items : List ι} (h : ∀ s, ∀ x ∈ items, Takes f (body s) (enc x) (step s x) 0) (s : σ) :
    Takes f (loop items.length body s) (items.flatMap enc) (items.foldl step s) items.length := by
  refine (takes_loop enc step (fun _ => 0) h s).of_eq rfl rfl ?_
  rw [List.map_const', List.sum_replicate_nat, Nat.mul_zero, Nat.add_zero]

/-! ### What a reader answers at the end -/

variable (f) in
/-- Where the file goes on with `a`, the reader answers `x`, wherever it ends up. -/
def Answers (r : Reader α) (a : List UInt8) (x : α) : Prop :=
  ∀ c b, f.bytes.drop c.pos = a ++ b → (r c).1 = x

theorem Takes.answers {r : Reader α} {a : List UInt8} {x : α} {k : ℕ} (h : Takes f r a x k) :
    Answers f r a x := by
  intro c b hrest
  obtain ⟨reads, hrun⟩ := h c b hrest
  rw [hrun]

theorem Takes.nextAnswers {r : Reader α} {g : α → Reader β} {a b : List UInt8} {x : α} {y : β}
    {k : ℕ} (hr : Takes f r a x k) (hg : Answers f (g x) b y) : Answers f (r >>= g) (a ++ b) y := by
  intro c rest h
  rw [List.append_assoc] at h
  obtain ⟨reads, hrun⟩ := hr c _ h
  have hbind : (r >>= g) c = g (r c).1 (r c).2 := rfl
  rw [hbind, hrun]
  exact hg { c with pos := c.pos + a.length, reads := reads, steps := c.steps + k } rest
    (drop_of_append h)

theorem Answers.const (r : Reader α) (a : List UInt8) (y : β) :
    Answers f (r >>= fun _ => pure y) a y := fun _ _ _ => rfl

theorem Answers.map {r : Reader α} {a : List UInt8} {x : α} (h : Answers f r a x) (g : α → β) :
    Answers f (r >>= fun x => pure (g x)) a (g x) := by
  intro c b hrest
  rw [← h c b hrest]
  rfl

/-- A loop whose last iteration may end anywhere. -/
theorem answers_loop_through {ι τ : Type} (emb : σ → τ) {body : τ → Reader τ}
    (enc : ι → List UInt8) (step : σ → ι → σ) (cost : ι → ℕ) {items : List ι}
    (htakes : ∀ s, ∀ x ∈ items.dropLast,
      Takes f (body (emb s)) (enc x) (emb (step s x)) (cost x))
    (hlast : ∀ s, ∀ x ∈ items, Answers f (body (emb s)) (enc x) (emb (step s x))) (s : σ) :
    Answers f (loop items.length body (emb s)) (items.flatMap enc) (emb (items.foldl step s)) := by
  induction items generalizing s with
  | nil => exact fun _ _ _ => rfl
  | cons x items ih =>
    cases items with
    | nil =>
      have hx := Takes.nextAnswers (g := fun _ => body (emb s)) takes_tick
        (hlast s x List.mem_cons_self)
      intro c b h
      have hrun := hx c b (by simpa using h)
      exact hrun
    | cons y items =>
      have hrest := ih (fun s z hz => htakes s z (List.mem_cons_of_mem x hz))
        (fun s z hz => hlast s z (List.mem_cons_of_mem x hz)) (step s x)
      have hitem := (htakes s x List.mem_cons_self).nextAnswers hrest
      exact Takes.nextAnswers (a := [])
        (g := fun _ => body (emb s) >>= loop (y :: items).length body) takes_tick hitem

theorem answers_loop {ι : Type} {body : σ → Reader σ} (enc : ι → List UInt8) (step : σ → ι → σ)
    (cost : ι → ℕ) {items : List ι}
    (htakes : ∀ s, ∀ x ∈ items.dropLast, Takes f (body s) (enc x) (step s x) (cost x))
    (hlast : ∀ s, ∀ x ∈ items, Answers f (body s) (enc x) (step s x)) (s : σ) :
    Answers f (loop items.length body s) (items.flatMap enc) (items.foldl step s) :=
  answers_loop_through id enc step cost htakes hlast s

theorem foldl_snoc {ι : Type} (g : ι → α) (items : List ι) (s : List α) :
    items.foldl (fun s x => s ++ [g x]) s = s ++ items.map g := by
  induction items generalizing s with
  | nil => simp
  | cons x items ih =>
    rw [List.foldl_cons, ih, List.map_cons, List.append_assoc]
    rfl

end Reader

end ByteStream
