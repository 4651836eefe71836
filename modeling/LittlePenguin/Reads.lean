import LittlePenguin.Debugfs.Register
import LittlePenguin.Fix.RoundTrip
import LittlePenguin.MiscDevice

/-!
# The read handlers

Four handlers serve a content that does not change while it is read: the login
line of the misc device and of `id`, what is stored in `foo`, and the reversed
string. Three of them leave the copying to the kernel, `id` copies by itself,
and `myfd_read` makes its content anew at every call. Yet each reply goes on with
the content where the position of the open file is, whatever faults, and so a
reader always holds as much of the content as the position tells
(`reads_growingPrefix`).
-/

namespace LittlePenguin

open Lib

variable (K : Kernel)

/-- A read of the misc device. -/
def miscReads (u : Unit) (f : Fault) (count : ℕ) (offp : ℤ) : Reply × Unit :=
  (MiscDevice.miscRead K f count offp, u)

/-- A read of `id`. -/
def idReads (u : Unit) (f : Fault) (count : ℕ) (offp : ℤ) : Reply × Unit :=
  (Debugfs.idRead K f count offp, u)

/-- A read of `foo`. -/
def fooReads (s : Debugfs.Foo) (f : Fault) (count : ℕ) (offp : ℤ) : Reply × Debugfs.Foo :=
  (Debugfs.fooRead K f s count offp, s)

/-- A read of the reverse device, which takes the next pages from `kmalloc`. -/
def myfdReads (d : Fix.Opened) (f : Fault) (size : ℕ) (offs : ℤ) : Reply × Fix.Opened :=
  let c := Fix.myfdRead K f (d.heap 0) d.str size offs
  (c.reply, { str := c.str, heap := fun k => d.heap (k + 1) })

/-- The line the misc device and `id` serve. -/
def loginLine : Bytes := ascii "estruckm\n"

theorem follows_miscReads : Follows (miscReads K) (fun _ => True) loginLine where
  reply _ hp _ := K.read_continues hp (by decide)
  keep _ _ _ := trivial

theorem follows_idReads : Follows (idReads K) (fun _ => True) loginLine where
  reply _ hp hle := Debugfs.idRead_continues K _ _ hp hle
  keep _ _ _ := trivial

theorem follows_fooReads {s : Debugfs.Foo} (h : s.fooSize ≤ PAGE_SIZE) :
    Follows (fooReads K) (fun t => t = s) s.stored where
  reply ht hp _ := by
    rw [ht]
    exact K.read_continues hp (h.trans s.fooData.length_cells.ge)
  keep hs _ _ := hs

theorem follows_myfdReads {cells : Bytes} (h : strlen cells < PAGE_SIZE) :
    Follows (myfdReads K) (fun d => d.str.cells = cells) (cstr cells).reverse where
  reply := by
    rintro d f size offs rfl hp _
    obtain ⟨tmp, heq, htake, _⟩ := Fix.myfdRead_eq K h f (d.heap 0) size offs
    simp only [myfdReads, heq, ← htake]
    refine K.read_continues hp ?_
    rw [tmp.length_cells]
    omega
  keep := by
    rintro d f size offs rfl _ _
    obtain ⟨tmp, heq, _⟩ := Fix.myfdRead_eq K h f (d.heap 0) size offs
    simp only [myfdReads, heq, CArray.cells_scan]

/-- Each of the four handlers delivers a growing prefix of its content: of the
    login line, of what any earlier calls have stored in `foo`, and of the
    reversed string of a page with a NUL in it. -/
theorem reads_growingPrefix (earlier : List Debugfs.FooCall) (d : Fix.Opened)
    (hd : strlen d.str.cells < PAGE_SIZE) :
    let s := (Debugfs.foo K).state Debugfs.Foo.init earlier
    GrowingPrefix (miscReads K) () loginLine ∧ GrowingPrefix (idReads K) () loginLine ∧
      GrowingPrefix (fooReads K) s s.stored ∧
      GrowingPrefix (myfdReads K) d (cstr d.str.cells).reverse := by
  intro s
  refine ⟨(follows_miscReads K).growingPrefix trivial, (follows_idReads K).growingPrefix trivial,
    (follows_fooReads K ?_).growingPrefix rfl, (follows_myfdReads K hd).growingPrefix rfl⟩
  exact Debugfs.fooSize_state_le K earlier

/-- With the login line in `foo`, and `abc` in the page of the reverse device. -/
theorem reads_growingPrefix_pageAbc :
    let s := (Debugfs.foo .reference).state Debugfs.Foo.init [.write .never loginLine]
    GrowingPrefix (miscReads .reference) () loginLine ∧
      GrowingPrefix (idReads .reference) () loginLine ∧
      GrowingPrefix (fooReads .reference) s s.stored ∧
      GrowingPrefix (myfdReads .reference) ⟨Fix.pageAbc, fun _ => CArray.zeroed _⟩
        (ascii "cba") := by
  have h := reads_growingPrefix .reference [.write .never loginLine]
    ⟨Fix.pageAbc, fun _ => CArray.zeroed _⟩ Fix.strlen_pageAbc
  rw [show (cstr Fix.pageAbc.cells).reverse = ascii "cba" by rw [Fix.cstr_pageAbc]; decide] at h
  exact h

end LittlePenguin
