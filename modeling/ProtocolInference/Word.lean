/-!
The range of numbers.

Every number that comes from outside, in a document or on a command line,
has to fit into a word of 64 bits, and so does the time that a clock
shows.
-/

namespace ProtocolInference

/-- How many numbers a word can hold: two to the power of 64. -/
def wordSize : Nat := 0x10000000000000000

end ProtocolInference
