import Xv6.Proofs.Vm.UserMemory

/-!
# `Xv6.Proofs.Vm.Arguments`: the stack that `exec` makes

`exec` pushes the argument strings and then the array of pointers to them. Each push moves the stack
pointer down by the size, rounds it down to 16 bytes, checks it against the bottom of the stack page
and copies the bytes out. All of it is arithmetic on `uint64`, so a string that is longer than the
stack pointer wraps around to a huge address, and it is `copyout` that refuses it there.

`push_exact` is one push. It says where the bytes go (`slot`), and that a push that does not fit is
refused with nothing written outside the stack page. `pushArgs_exact` and `pushStack_exact` are the
two stages. Their result is given as writes to user memory (`writeAll`), which never overlap since
every slot lies below the one before.
-/

set_option autoImplicit false

namespace Xv6.Proofs

open Lib List

variable {c mem' : Bytes} {n sp va : Nat} {src : List UInt8}

/-! ### Slots -/

/-- Where `n` bytes go below `sp`. -/
def slot (sp n : Nat) : Nat := (sp - n) / 16 * 16

/-- Where things of the given sizes go, one below the other. -/
def slots : (sp : Nat) → List Nat → List Nat
  | _, [] => []
  | sp, n :: ns => slot sp n :: slots (slot sp n) ns

/-- All of them lie at or above `base`. -/
def Fits (base : Nat) : (sp : Nat) → List Nat → Prop
  | _, [] => True
  | sp, n :: ns => n ≤ sp ∧ base ≤ slot sp n ∧ Fits base (slot sp n) ns

instance decidableFits (base : Nat) : (sp : Nat) → (ns : List Nat) → Decidable (Fits base sp ns)
  | _, [] => isTrue trivial
  | sp, n :: ns =>
    have := decidableFits base (slot sp n) ns
    inferInstanceAs (Decidable (_ ∧ _ ∧ _))

theorem slot_add_le (h : n ≤ sp) : slot sp n + n ≤ sp := by
  unfold slot
  omega

theorem slot_mod (sp n : Nat) : slot sp n % 16 = 0 := Nat.mul_mod_left _ _

theorem length_slots (ns : List Nat) : ∀ sp, (slots sp ns).length = ns.length := by
  induction ns with
  | nil => exact fun _ => rfl
  | cons n ns ih => exact fun sp => congrArg (· + 1) (ih _)

theorem slots_append (ns ms : List Nat) :
    ∀ sp, slots sp (ns ++ ms) = slots sp ns ++ slots ((slots sp ns).getLastD sp) ms := by
  induction ns with
  | nil => exact fun _ => rfl
  | cons n ns ih =>
    intro sp
    rw [cons_append, slots, ih, slots, cons_append, getLastD_cons]

theorem fits_append {base : Nat} (ns ms : List Nat) :
    ∀ sp, Fits base sp (ns ++ ms) ↔ Fits base sp ns ∧ Fits base ((slots sp ns).getLastD sp) ms := by
  induction ns with
  | nil => exact fun _ => (iff_of_eq (true_and _)).symm
  | cons n ns ih =>
    intro sp
    rw [cons_append, Fits, ih, Fits, slots, getLastD_cons, and_assoc, and_assoc]

/-- The slots are inside, each below the one before. -/
theorem Fits.bounds {base : Nat} (ns : List Nat) :
    ∀ {sp : Nat}, Fits base sp ns → ∀ (i a n : Nat), (slots sp ns)[i]? = some a → ns[i]? = some n →
      base ≤ a ∧ a + n ≤ sp ∧ a % 16 = 0 := by
  induction ns with
  | nil => exact fun _ i a n _ hn => absurd hn (by simp)
  | cons m ns ih =>
    intro sp h i a n ha hn
    obtain ⟨hle, hbase, hrest⟩ := h
    cases i with
    | zero =>
      obtain rfl : slot sp m = a := Option.some.inj ha
      obtain rfl : m = n := Option.some.inj hn
      exact ⟨hbase, slot_add_le hle, slot_mod _ _⟩
    | succ i =>
      obtain ⟨hlo, hhi, hmod⟩ := ih hrest i a n ha hn
      have := slot_add_le hle
      exact ⟨hlo, by omega, hmod⟩

/-- A later string is below the earlier ones. -/
theorem Fits.below {base : Nat} (ns : List Nat) :
    ∀ {sp : Nat}, Fits base sp ns → ∀ (i j a b n : Nat), i < j → (slots sp ns)[i]? = some a →
      (slots sp ns)[j]? = some b → ns[j]? = some n → b + n ≤ a := by
  induction ns with
  | nil => exact fun _ i j a b n _ ha => absurd ha (by simp [slots])
  | cons m ns ih =>
    intro sp h i j a b n hij ha hb hn
    obtain ⟨-, -, hrest⟩ := h
    obtain ⟨j, rfl⟩ := Nat.exists_eq_succ_of_ne_zero (Nat.ne_zero_of_lt hij)
    cases i with
    | zero =>
      obtain rfl : slot sp m = a := Option.some.inj ha
      exact (hrest.bounds ns j b n hb hn).2.1
    | succ i => exact ih hrest i j a b n (Nat.lt_of_succ_lt_succ hij) ha hb hn

theorem Fits.getLastD_le {base : Nat} {ns : List Nat} :
    ∀ {sp : Nat}, Fits base sp ns → (slots sp ns).getLastD sp ≤ sp := by
  induction ns with
  | nil => exact fun _ => le_rfl
  | cons n ns ih =>
    intro sp h
    rw [slots, getLastD_cons]
    have hrest := ih h.2.2
    have := slot_add_le h.1
    omega

/-! ### Writes to user memory -/

/-- `c` with the strings `bss` at the addresses `as`. -/
def writeAll : (c : Bytes) → (as : List Nat) → (bss : List (List UInt8)) → Bytes
  | c, a :: as, bs :: bss => writeAll (putBytes c a bs) as bss
  | c, _, _ => c

/-- The strings are written in order. -/
theorem writeAll_append (as bs : List Nat) (xs ys : List (List UInt8)) :
    ∀ c : Bytes, as.length = xs.length →
      writeAll c (as ++ bs) (xs ++ ys) = writeAll (writeAll c as xs) bs ys := by
  induction as generalizing xs with
  | nil =>
    intro c hlen
    rw [eq_nil_of_length_eq_zero hlen.symm]
    rfl
  | cons a as ih =>
    intro c hlen
    cases xs with
    | nil => cases hlen
    | cons x xs => exact ih xs _ (Nat.succ.inj hlen)

theorem putBytes_apply {a v : Nat} {bs : List UInt8} {b : UInt8} {j : Nat} (hb : bs[j]? = some b)
    (hv : v = a + j) : putBytes c a bs v = b := by
  have hj := (List.getElem?_eq_some_iff.mp hb).1
  unfold putBytes
  rw [if_pos (by omega), hv, Nat.add_sub_cancel_left, getD_eq_getElem?_getD, hb,
    Option.getD_some]

theorem putBytes_apply_of_not_mem {a v : Nat} {bs : List UInt8} (hv : v < a ∨ a + bs.length ≤ v) :
    putBytes c a bs v = c v :=
  if_neg (by omega)

/-- What is written below `sp` leaves the rest alone. -/
theorem writeAll_above {base : Nat} (bss : List (List UInt8)) :
    ∀ {sp : Nat} (c : Bytes), Fits base sp (bss.map List.length) → ∀ v, sp ≤ v ∨ v < base →
      writeAll c (slots sp (bss.map List.length)) bss v = c v := by
  induction bss with
  | nil => exact fun c _ v _ => rfl
  | cons bs bss ih =>
    intro sp c h v hv
    obtain ⟨hle, hbase, hrest⟩ := h
    have := slot_add_le hle
    rw [map_cons, slots, writeAll, ih _ hrest v (by omega),
      putBytes_apply_of_not_mem (by omega)]

/-- Every string is where it was written. -/
theorem writeAll_apply {base : Nat} (bss : List (List UInt8)) :
    ∀ {sp : Nat} (c : Bytes), Fits base sp (bss.map List.length) →
      ∀ (i a : Nat) (bs : List UInt8), (slots sp (bss.map List.length))[i]? = some a →
        bss[i]? = some bs → ∀ (j : Nat) (b : UInt8), bs[j]? = some b →
          writeAll c (slots sp (bss.map List.length)) bss (a + j) = b := by
  induction bss with
  | nil => exact fun c _ i a bs _ hbs => absurd hbs (by simp)
  | cons bs₀ bss ih =>
    intro sp c h i a bs ha hbs j b hb
    obtain ⟨hle, hbase, hrest⟩ := h
    rw [map_cons, slots, writeAll]
    cases i with
    | zero =>
      obtain rfl : slot sp bs₀.length = a := Option.some.inj ha
      obtain rfl : bs₀ = bs := Option.some.inj hbs
      -- later strings are below this one
      rw [writeAll_above bss _ hrest _ (by omega)]
      exact putBytes_apply hb rfl
    | succ i => exact ih _ hrest i a bs ha hbs j b hb

/-! ### One push -/

/-- The page at `base` is the last one that the user may access. -/
structure StackPage (es : List Entry) (base : Nat) : Prop where
  aligned : base % PGSIZE = 0
  pos : 0 < base
  lt : base + PGSIZE < 2 ^ 32
  page : userPage es base ≠ none
  last : ∀ va, base + PGSIZE ≤ va → userPage es va = none

/-- Memory changes only in the stack page. -/
def StackWrites (es : List Entry) (base : Nat) (mem mem' : Bytes) : Prop :=
  ∀ a, mem' a ≠ mem a → ∃ va pg, base ≤ va ∧ userPage es va = some pg ∧ a = pg + va % PGSIZE

section Push

variable {ph : Phys} {d : Dirs} {tf : Entry} {es : List Entry} {other : List Nat} {base : Nat}

theorem StackWrites.refl (es : List Entry) (base : Nat) (mem : Bytes) :
    StackWrites es base mem mem := fun _ ha => absurd rfl ha

theorem StackWrites.trans {mem₁ mem₂ mem₃ : Bytes} (h : StackWrites es base mem₁ mem₂)
    (h' : StackWrites es base mem₂ mem₃) : StackWrites es base mem₁ mem₃ := by
  intro a ha
  by_cases hsame : mem₃ a = mem₂ a
  · exact h a (hsame ▸ ha)
  · exact h' a hsame

theorem StackWrites.userWrites {mem : Bytes} (h : StackWrites es base mem mem') :
    UserWrites es mem mem' := fun a ha => by
  obtain ⟨va, pg, -, hpg, rfl⟩ := h a ha
  exact ⟨va, pg, hpg, rfl⟩

theorem CopiedOut.stackWrites {mem : Bytes} (h : CopiedOut es va src n mem mem') (hva : base ≤ va) :
    StackWrites es base mem mem' := by
  intro a ha
  obtain ⟨k, -, pg, hpg, rfl⟩ := h.frame a ha
  exact ⟨va + k, pg, by omega, hpg, rfl⟩

theorem StackPage.userPage (h : StackPage es base) (hlo : base ≤ va) (hhi : va < base + PGSIZE) :
    userPage es va ≠ none := by
  have hdiv : va / PGSIZE = base / PGSIZE := by
    have := h.aligned
    unfold PGSIZE at *
    omega
  have hpage := h.page
  unfold Proofs.userPage at hpage ⊢
  rwa [hdiv]

theorem userPage_entry {pg : Nat} {e : Entry} (hpg : userPage es va = some pg)
    (he : es[va / PGSIZE]? = some e) : pg = e.page := by
  obtain ⟨e', he', -, rfl⟩ := userPage_eq_some.mp hpg
  rw [Option.some.inj (he'.symm.trans he)]

/-- What `copyout` transfers, as a write to user memory. -/
theorem holds_of_copiedOut (h : AddressSpace ph d tf es other)
    (hcopied : CopiedOut es va src n ph.mem mem') (hreach : ∀ k < n, userPage es (va + k) ≠ none)
    (hn : n ≤ src.length) (hholds : PagesHold ph.mem es c) :
    PagesHold mem' es (putBytes c va (src.take n)) := by
  intro i e he o ho
  have hdiv : (i * PGSIZE + o) / PGSIZE = i := by
    unfold PGSIZE at *
    omega
  have hmod : (i * PGSIZE + o) % PGSIZE = o := by
    unfold PGSIZE at *
    omega
  by_cases hin : va ≤ i * PGSIZE + o ∧ i * PGSIZE + o < va + n
  · obtain ⟨k, hk⟩ := Nat.exists_eq_add_of_le hin.1
    obtain ⟨pg, hpg⟩ := Option.ne_none_iff_exists'.mp (hreach k (by omega))
    have hwrote := hcopied.wrote k (by omega) pg hpg
    rw [← hk] at hpg hwrote
    obtain rfl := userPage_entry hpg (by rwa [hdiv])
    rw [hmod] at hwrote
    exact (putBytes_apply (by rw [List.getElem?_take_of_lt (by omega), hwrote]) hk).symm
  · rw [putBytes_apply_of_not_mem (by rw [length_take]; omega), ← hholds i e he o ho]
    by_contra hne
    obtain ⟨k, hk, pg, hpg, heq⟩ := hcopied.frame _ hne
    -- the byte is at address `va + k` of user memory
    obtain ⟨e', he', hplv, rfl⟩ := userPage_eq_some.mp hpg
    have hpage : e'.page = e.page := by
      have hvalid : ∀ {j : Nat} {x : Entry}, es[j]? = some x → IsPage x.page := fun hx =>
        h.owns.own_valid (mem_cons_of_mem _ (mem_append_left _
          (mem_append_right _ (mem_map_of_mem (mem_of_getElem? hx)))))
      refine inPage_unique (K := ramPages) (hvalid he') (hvalid he) (a := e.page + o)
        ⟨?_, ?_⟩ ⟨Nat.le_add_right _ _, Nat.add_lt_add_left ho _⟩
      · rw [heq]
        exact Nat.le_add_right _ _
      · rw [heq]
        exact Nat.add_lt_add_left (Nat.mod_lt _ (by decide)) _
    have hself : userPage es (i * PGSIZE + o) = some e.page := by
      have hidx : (va + k) / PGSIZE = i := by
        have hnodup : (es.map Entry.page).Nodup := by
          have hall := (nodup_append.mp h.owns.nodup).2.1
          exact (nodup_append.mp (nodup_append.mp (nodup_cons.mp hall).2).1).2.1
        obtain ⟨hlt, -⟩ := List.getElem?_eq_some_iff.mp he'
        refine (List.getElem?_inj (by rwa [length_map]) hnodup).mp ?_
        rw [List.getElem?_map, List.getElem?_map, he', he, Option.map_some, Option.map_some, hpage]
      rw [hidx] at he'
      obtain rfl := Option.some.inj (he'.symm.trans he)
      exact userPage_eq_some.mpr ⟨_, by rwa [hdiv], hplv, rfl⟩
    have := h.byte_inj hself hpg (by rw [hmod, heq])
    omega

/-- One string is copied to the stack page, below what is there. -/
theorem push_exact (hs : StackPage es base) (h : AddressSpace ph d tf es other)
    (hsp : sp ≤ base + PGSIZE) (hsrc : 0 < src.length)
    (hbase : base ≤ sub64 sp src.length - sub64 sp src.length % 16) :
    ∃ r mem', (copyout d.root (sub64 sp src.length - sub64 sp src.length % 16) src).run ph
        = .ok (r, ⟨mem', ph.freelist⟩) ∧ StackWrites es base ph.mem mem' ∧
      (r < 0 ↔ ¬ (src.length ≤ sp ∧ base ≤ slot sp src.length)) ∧
      (¬ r < 0 → ∀ c, PagesHold ph.mem es c →
        PagesHold mem' es (putBytes c (slot sp src.length) src)) := by
  have hlt := hs.lt
  have hpos := hs.pos
  obtain ⟨r, mem', n, hrun, hext, hcopied⟩ :=
    copyoutLoop_exact src.length (sub64 sp src.length - sub64 sp src.length % 16) src h le_rfl
  have hwrites := hcopied.stackWrites hbase
  by_cases hle : src.length ≤ sp
  · have ha : sub64 sp src.length - sub64 sp src.length % 16 = slot sp src.length := by
      unfold sub64 slot
      unfold PGSIZE at *
      omega
    rw [ha] at hrun hext hcopied hbase ⊢
    have hend := slot_add_le hle
    obtain ⟨rfl, rfl⟩ : r = 0 ∧ n = src.length := by
      rcases hext.stop with hall | ⟨-, hnlt, hnone, -⟩
      · exact hall
      · exact absurd hnone (hs.userPage (by omega) (by omega))
    refine ⟨0, mem', hrun, hwrites, iff_of_false (by decide) (not_not_intro ⟨hle, hbase⟩),
      fun _ c hholds => ?_⟩
    have hpages := holds_of_copiedOut h hcopied hext.reach le_rfl hholds
    rwa [take_length] at hpages
  · -- the address has wrapped around, and the copy ends beyond the stack page
    obtain ⟨rfl, -⟩ : r = -1 ∧ n < src.length := by
      rcases hext.stop with ⟨-, rfl⟩ | ⟨hr, hnlt, -⟩
      · have hreach := hext.reach (src.length - 1) (by omega)
        refine absurd (hs.last _ ?_) hreach
        unfold sub64 at hbase ⊢
        unfold PGSIZE at *
        omega
      · exact ⟨hr, hnlt⟩
    exact ⟨-1, mem', hrun, hwrites, iff_of_true (by decide) fun hfit => hle hfit.1,
      fun hr => absurd (by decide) hr⟩

/-- If the address is below the stack page, the push does not fit. -/
theorem not_fit_of_below (hsp : sp < 2 ^ 64) (h : sub64 sp n - sub64 sp n % 16 < base) :
    ¬ (n ≤ sp ∧ base ≤ slot sp n) := by
  rintro ⟨hle, hbase⟩
  unfold sub64 at h
  unfold slot at hbase
  omega

/-! ### The two stages -/

/-- The sizes of the strings with their terminator. -/
def strSizes (argv : List (List UInt8)) : List Nat := argv.map fun s => s.length + 1

/-- The loop over the arguments pushes all of them if they fit the page. -/
theorem pushArgs_exact (hs : StackPage es base) (argv : List (List UInt8)) :
    ∀ {ph : Phys} {sp : Nat} {ustack : List Nat}, AddressSpace ph d tf es other →
      sp ≤ base + PGSIZE → ustack.length ≤ MAXARG →
      ∃ r mem', (pushArgs d.root base argv sp ustack).run ph = .ok (r, ⟨mem', ph.freelist⟩) ∧
        StackWrites es base ph.mem mem' ∧
        ((r = none ∧ ¬ (Fits base sp (strSizes argv) ∧ ustack.length + argv.length ≤ MAXARG)) ∨
          (Fits base sp (strSizes argv) ∧ ustack.length + argv.length ≤ MAXARG ∧
          r = some ((slots sp (strSizes argv)).getLastD sp, ustack ++ slots sp (strSizes argv)) ∧
          ∀ c, PagesHold ph.mem es c →
            PagesHold mem' es (writeAll c (slots sp (strSizes argv)) (argv.map (· ++ [0]))))) := by
  induction argv with
  | nil =>
    intro ph sp ustack _ _ hmax
    refine ⟨_, ph.mem, rfl, StackWrites.refl _ _ _, Or.inr ⟨trivial, hmax, ?_,
      fun c hholds => hholds⟩⟩
    rw [strSizes, map_nil, slots, append_nil]
    rfl
  | cons s argv ih =>
    intro ph sp ustack h hsp hmax
    have hlt := hs.lt
    have hlen : (s ++ [0]).length = s.length + 1 := by simp
    have hsizes : strSizes (s :: argv) = (s.length + 1) :: strSizes argv := rfl
    rw [pushArgs, hsizes, length_cons]
    by_cases hfull : MAXARG ≤ ustack.length
    · rw [if_pos hfull]
      exact ⟨none, ph.mem, rfl, StackWrites.refl _ _ _, Or.inl ⟨rfl, fun hok => by omega⟩⟩
    rw [if_neg hfull]
    dsimp only
    by_cases hbelow : sub64 sp (s.length + 1) - sub64 sp (s.length + 1) % 16 < base
    · have hno := not_fit_of_below (by omega) hbelow
      rw [if_pos hbelow]
      exact ⟨none, ph.mem, rfl, StackWrites.refl _ _ _,
        Or.inl ⟨rfl, fun hok => hno ⟨hok.1.1, hok.1.2.1⟩⟩⟩
    rw [if_neg hbelow]
    obtain ⟨r₁, mem₁, hrun₁, hw₁, hiff, hbytes₁⟩ := push_exact hs h hsp
      (by omega : 0 < (s ++ [0]).length) (by rw [hlen]; omega)
    rw [hlen] at hrun₁ hiff hbytes₁
    rw [run_bind_ok hrun₁]
    by_cases hneg : r₁ < 0
    · rw [if_pos hneg]
      exact ⟨none, mem₁, rfl, hw₁,
        Or.inl ⟨rfl, fun hok => hiff.mp hneg ⟨hok.1.1, hok.1.2.1⟩⟩⟩
    rw [if_neg hneg]
    obtain ⟨hle, hslot⟩ := not_not.mp (mt hiff.mpr hneg)
    have ha : sub64 sp (s.length + 1) - sub64 sp (s.length + 1) % 16 = slot sp (s.length + 1) := by
      unfold sub64 slot
      omega
    have hend := slot_add_le hle
    rw [ha]
    have hmore : (ustack ++ [slot sp (s.length + 1)]).length ≤ MAXARG := by
      rw [length_append, length_singleton]
      omega
    obtain ⟨r, mem', hrun, hw, hcase⟩ := ih (h.after hw₁.userWrites)
      (by omega : slot sp (s.length + 1) ≤ base + PGSIZE) hmore
    rw [length_append, length_singleton, Nat.add_assoc, Nat.add_comm 1] at hcase
    refine ⟨r, mem', hrun, hw₁.trans hw, ?_⟩
    rcases hcase with ⟨rfl, hno⟩ | ⟨hfits, hle', rfl, hbytes⟩
    · exact Or.inl ⟨rfl, fun hok => hno ⟨hok.1.2.2, hok.2⟩⟩
    · refine Or.inr ⟨⟨hle, hslot, hfits⟩, hle', ?_,
        fun c hholds => hbytes _ (hbytes₁ hneg c hholds)⟩
      rw [slots, getLastD_cons, append_assoc]
      rfl

/-- The sizes of the strings and of the array of pointers. -/
def stackSizes (argv : List (List UInt8)) : List Nat := strSizes argv ++ [(argv.length + 1) * 8]

/-- The pointers, as bytes. -/
def pointerBytes (addrs : List Nat) : List UInt8 := (addrs ++ [0]).flatMap (leBytes 8)

theorem length_pointerBytes (addrs : List Nat) :
    (pointerBytes addrs).length = (addrs.length + 1) * 8 := by
  simp [pointerBytes, length_leBytes, length_flatMap, Nat.add_mul]

/-- What the stack holds, from the top down: the strings, and the array. -/
def stackBytes (argv : List (List UInt8)) (addrs : List Nat) : List (List UInt8) :=
  argv.map (· ++ [0]) ++ [pointerBytes addrs]

/-- How `exec` makes the stack below `base + PGSIZE`. -/
theorem pushStack_exact (hs : StackPage es base) (h : AddressSpace ph d tf es other)
    (argv : List (List UInt8)) :
    ∃ r mem', (pushStack d.root base (base + PGSIZE) argv).run ph
        = .ok (r, ⟨mem', ph.freelist⟩) ∧ StackWrites es base ph.mem mem' ∧
      ((r = none ∧ ¬ (Fits base (base + PGSIZE) (stackSizes argv) ∧ argv.length ≤ MAXARG)) ∨
        (Fits base (base + PGSIZE) (stackSizes argv) ∧ argv.length ≤ MAXARG ∧ ∃ addrs sp,
        slots (base + PGSIZE) (stackSizes argv) = addrs ++ [sp] ∧
        addrs.length = argv.length ∧ r = some (sp, argv.length) ∧
        ∀ c, PagesHold ph.mem es c →
          PagesHold mem' es (writeAll c (addrs ++ [sp]) (stackBytes argv addrs)))) := by
  have hlt := hs.lt
  obtain ⟨r₁, mem₁, hrun₁, hw₁, hcase⟩ :=
    pushArgs_exact hs argv h le_rfl (show ([] : List Nat).length ≤ MAXARG from Nat.zero_le _)
  rw [length_nil, Nat.zero_add] at hcase
  unfold stackSizes
  rw [fits_append, slots_append]
  rw [pushStack, run_bind_ok hrun₁]
  rcases hcase with ⟨rfl, hno⟩ | ⟨hstrs, hmax, rfl, hbytes₁⟩
  · exact ⟨none, mem₁, rfl, hw₁, Or.inl ⟨rfl, fun hok => hno ⟨hok.1.1, hok.2⟩⟩⟩
  have hlen : (slots (base + PGSIZE) (strSizes argv)).length = argv.length := by
    rw [length_slots, strSizes, length_map]
  have hsp := hstrs.getLastD_le
  rw [nil_append]
  generalize slots (base + PGSIZE) (strSizes argv) = addrs at hlen hsp hbytes₁ ⊢
  dsimp only
  have hsize := length_pointerBytes addrs
  rw [hlen] at hsize ⊢
  by_cases hbelow : sub64 (addrs.getLastD (base + PGSIZE)) ((argv.length + 1) * 8) -
      sub64 (addrs.getLastD (base + PGSIZE)) ((argv.length + 1) * 8) % 16 < base
  · have hno := not_fit_of_below (by omega) hbelow
    rw [if_pos hbelow]
    exact ⟨none, mem₁, rfl, hw₁, Or.inl ⟨rfl, fun hok => hno ⟨hok.1.2.1, hok.1.2.2.1⟩⟩⟩
  rw [if_neg hbelow]
  obtain ⟨r₂, mem₂, hrun₂, hw₂, hiff, hbytes₂⟩ := push_exact hs (h.after hw₁.userWrites) hsp
    (by omega : 0 < (pointerBytes addrs).length) (by rw [hsize]; omega)
  rw [hsize] at hrun₂ hiff hbytes₂
  have hpointers : (addrs ++ [0]).flatMap (leBytes 8) = pointerBytes addrs := rfl
  rw [hpointers, run_bind_ok hrun₂]
  by_cases hneg : r₂ < 0
  · rw [if_pos hneg]
    exact ⟨none, mem₂, rfl, hw₁.trans hw₂,
      Or.inl ⟨rfl, fun hok => hiff.mp hneg ⟨hok.1.2.1, hok.1.2.2.1⟩⟩⟩
  rw [if_neg hneg]
  obtain ⟨hle, hslot⟩ := not_not.mp (mt hiff.mpr hneg)
  have ha : sub64 (addrs.getLastD (base + PGSIZE)) ((argv.length + 1) * 8) -
      sub64 (addrs.getLastD (base + PGSIZE)) ((argv.length + 1) * 8) % 16
      = slot (addrs.getLastD (base + PGSIZE)) ((argv.length + 1) * 8) := by
    unfold sub64 slot
    omega
  refine ⟨_, mem₂, rfl, hw₁.trans hw₂, Or.inr ⟨⟨hstrs, hle, hslot, trivial⟩, hmax, addrs, _, rfl,
    hlen, by rw [ha], fun c hholds => ?_⟩⟩
  unfold stackBytes
  rw [writeAll_append _ _ _ _ _ (by rw [hlen, length_map])]
  exact hbytes₂ hneg _ (hbytes₁ c hholds)

end Push

end Xv6.Proofs
