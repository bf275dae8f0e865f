import Scriptlet.Text.Utf8

/-!
Queues of octets, first in first out. A copy is independent of the queue it was taken from.
-/

namespace Scriptlet

structure ByteQueue where
  bytes : List UInt8 := []
  deriving DecidableEq, Repr

namespace ByteQueue

def put (q : ByteQueue) (bytes : List UInt8) : ByteQueue := ⟨q.bytes ++ bytes⟩

def peek? (q : ByteQueue) : Option UInt8 := q.bytes.head?

def dequeue (q : ByteQueue) : Option UInt8 × ByteQueue := (q.bytes.head?, ⟨q.bytes.tail⟩)

def clear (_ : ByteQueue) : ByteQueue := {}

def size (q : ByteQueue) : Nat := q.bytes.length

def takeText (q : ByteQueue) : String × ByteQueue := (Utf8.decode q.bytes, {})

@[simp] theorem bytes_put (q : ByteQueue) (bytes : List UInt8) :
    (q.put bytes).bytes = q.bytes ++ bytes := rfl

@[simp] theorem bytes_clear (q : ByteQueue) : q.clear.bytes = [] := rfl

@[simp] theorem size_put (q : ByteQueue) (bytes : List UInt8) :
    (q.put bytes).size = q.size + bytes.length := by
  simp [size]

@[simp] theorem bytes_dequeue (q : ByteQueue) : q.dequeue.2.bytes = q.bytes.tail := rfl

/-- What is put into a queue waits behind what it already holds. -/
theorem dequeue_put (q : ByteQueue) (bytes : List UInt8) (h : q.bytes ≠ []) :
    (q.put bytes).dequeue = (q.peek?, q.dequeue.2.put bytes) := by
  obtain ⟨held⟩ := q
  cases held with
  | nil => exact absurd rfl h
  | cons b rest => rfl

theorem dequeue_put_of_empty (q : ByteQueue) (b : UInt8) (h : q.bytes = []) :
    (q.put [b]).dequeue = (some b, {}) := by
  simp [dequeue, h]

end ByteQueue

end Scriptlet
